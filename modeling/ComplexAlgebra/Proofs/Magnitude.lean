import ComplexAlgebra.Proofs.Rounding
import ComplexAlgebra.Proofs.UnitCoefficient

/-! Doubles by their sign and magnitude. Products and quotients have the rounded magnitude, unless
it is too large; order and equality of doubles are those of the magnitudes. -/
namespace ComplexAlgebra
namespace Binary64

open Float.Model Float.Model.UnpackedFloat

/-- A finite double other than zero, by its sign and its magnitude; `Holds` is the positive case. -/
def HasMagnitude (x : Float) (s : Sign) (v : ℚ) : Prop :=
  ∃ m q, ∃ hm : 0 < m, x.toModel.unpack = .finite s m q hm ∧ (m : ℚ) * 2 ^ q = v

variable {v w : ℚ} {x y : Float} {s t : Sign}

theorem HasMagnitude.isDouble (h : HasMagnitude x s v) : IsDouble v := by
  obtain ⟨m, q, hm, hu, rfl⟩ := h
  exact ⟨m, q, canonical_of_unpack hu, rfl⟩

theorem HasMagnitude.isFinite (h : HasMagnitude x s v) : x.isFinite = true := by
  obtain ⟨m, q, hm, hu, -⟩ := h
  show x.toModel.unpack.isFinite = true
  rw [hu]
  rfl

theorem canonical_unique {m n : ℕ} {p q : Int} (h : Canonical m p) (h' : Canonical n q)
    (heq : (m : ℚ) * 2 ^ p = n * 2 ^ q) : m = n ∧ p = q := by
  have hm := h.nearest_eq .positive
  rw [heq, h'.nearest_eq .positive] at hm
  injection hm with _ hm hp
  exact ⟨hm.symm, hp.symm⟩

theorem HasMagnitude.unique (h : HasMagnitude x s v) (h' : HasMagnitude y s v) : x = y := by
  obtain ⟨m, p, hm, hx, rfl⟩ := h
  obtain ⟨n, q, hn, hy, heq⟩ := h'
  obtain ⟨rfl, rfl⟩ := canonical_unique (canonical_of_unpack hy) (canonical_of_unpack hx) heq
  rw [← ofModel_pack hx, ← ofModel_pack hy]

theorem HasMagnitude.inj (h : HasMagnitude x s v) (h' : HasMagnitude x t w) : s = t ∧ v = w := by
  obtain ⟨m, p, hm, hx, rfl⟩ := h
  obtain ⟨n, q, hn, hy, rfl⟩ := h'
  cases hx.symm.trans hy
  exact ⟨rfl, rfl⟩

theorem exists_hasMagnitude (h : x.isFinite = true) :
    rank x = 0 ∨ ∃ s v, HasMagnitude x s v := by
  rcases unpack_of_isFinite h with ⟨-, s, hu⟩ | ⟨-, s, m, q, hm, hu, -⟩
  · exact .inl (rank_of_unpack hu)
  · exact .inr ⟨s, _, m, q, hm, hu, rfl⟩

theorem HasMagnitude.rank_ne_zero (h : HasMagnitude x s v) : rank x ≠ 0 := by
  obtain ⟨m, q, hm, hx, -⟩ := h
  intro h0
  obtain ⟨t, ht⟩ := unpack_of_rank h0
  cases hx.symm.trans ht

theorem HasMagnitude.abs (h : HasMagnitude x s v) : HasMagnitude x.abs .positive v := by
  obtain ⟨m, q, hm, hx, rfl⟩ := h
  exact ⟨m, q, hm, unpack_abs hx, rfl⟩

theorem unpack_neg (x : Float) : (-x).toModel.unpack = x.toModel.unpack.neg := by
  show (Float.Model.pack x.toModel.unpack.neg).unpack = _
  cases hx : x.toModel.unpack with
  | finite s m q hm => exact unpack_pack (canonical_of_unpack hx) (exponent_le hx) (-s)
  | zero s => cases s <;> rfl
  | infinity s => cases s <;> rfl
  | notANumber => rfl

theorem isFinite_neg (x : Float) : (-x).isFinite = x.isFinite := by
  show (-x).toModel.unpack.isFinite = x.toModel.unpack.isFinite
  rw [unpack_neg]
  cases x.toModel.unpack <;> rfl

protected theorem abs_neg (x : Float) : (-x).abs = x.abs := by
  rw [abs_of_unpack (unpack_neg x), abs_of_unpack (x := x) rfl]
  cases x.toModel.unpack <;> rfl

protected theorem neg_neg (x : Float) : -(-x) = x := by
  rw [← ofModel_pack (unpack_neg (-x)), unpack_neg]
  cases hx : x.toModel.unpack with
  | finite s m q hm => cases s <;> exact ofModel_pack hx
  | zero s => cases s <;> exact ofModel_pack hx
  | infinity s => cases s <;> exact ofModel_pack hx
  | notANumber => exact ofModel_pack hx

theorem rank_neg_of_rank (h : rank x = 0) : rank (-x) = 0 := by
  rcases eq_zero_of_rank h with rfl | rfl <;> decide

theorem beq_neg (x y : Float) : (-x == -y) = (x == y) := by
  show UnpackedFloat.beq (-x).toModel.unpack (-y).toModel.unpack =
    UnpackedFloat.beq x.toModel.unpack y.toModel.unpack
  rw [unpack_neg, unpack_neg]
  have hswap (o : Ordering) : (some o.swap == some Ordering.eq) = (some o == some Ordering.eq) := by
    cases o <;> rfl
  cases x.toModel.unpack with
  | finite s m q hm =>
    cases y.toModel.unpack with
    | finite t n p hn =>
      cases s <;> cases t
      · exact (hswap _).symm
      · rfl
      · rfl
      · exact hswap _
    | zero t => cases s <;> rfl
    | infinity t => cases s <;> cases t <;> rfl
    | notANumber => cases s <;> rfl
  | zero s =>
    cases y.toModel.unpack with
    | finite t n p hn => cases t <;> rfl
    | zero t => rfl
    | infinity t => cases t <;> rfl
    | notANumber => rfl
  | infinity s =>
    cases y.toModel.unpack with
    | finite t n p hn => cases s <;> cases t <;> rfl
    | zero t => cases s <;> rfl
    | infinity t => cases s <;> cases t <;> rfl
    | notANumber => cases s <;> rfl
  | notANumber => rfl

theorem signed_neg (s : Sign) (x : Float) : signed (-s) x = -signed s x := by
  cases s with
  | positive => rfl
  | negative => exact (Binary64.neg_neg x).symm

theorem HasMagnitude.neg (h : HasMagnitude x s v) : HasMagnitude (-x) (-s) v := by
  obtain ⟨m, q, hm, hx, rfl⟩ := h
  refine ⟨m, q, hm, ?_, rfl⟩
  rw [unpack_neg, hx]
  rfl

theorem HasMagnitude.signed (h : HasMagnitude x .positive v) (s : Sign) :
    HasMagnitude (signed s x) s v := by
  cases s with
  | positive => exact h
  | negative => exact h.neg

/-- Magnitudes from here on are beyond the largest double. -/
def limit : ℚ := 2 ^ (1024 : Int)

theorem limit_pos : 0 < limit := zpow_pos (by norm_num) _

theorem Canonical.lt_limit_iff {m : ℕ} {q : Int} (h : Canonical m q) :
    (m : ℚ) * 2 ^ q < limit ↔ q ≤ 971 := by
  have hpos : (0 : ℚ) < 2 ^ q := zpow_pos (by norm_num) q
  constructor
  · intro hlt
    by_contra hq
    have hnormal : (2 : ℚ) ^ (52 : Int) ≤ m := by
      exact_mod_cast h.normal.resolve_right (by omega)
    have hle : limit ≤ m * 2 ^ q := by
      calc limit ≤ 2 ^ (52 + q) := zpow_le_zpow_right₀ (by norm_num) (by omega)
        _ = 2 ^ (52 : Int) * 2 ^ q := zpow_add₀ (by norm_num) _ _
        _ ≤ m * 2 ^ q := mul_le_mul_of_nonneg_right hnormal hpos.le
    exact hlt.not_ge hle
  · intro hq
    have hlt : (m : ℚ) < 2 ^ (53 : Int) := by exact_mod_cast h.lt
    calc (m : ℚ) * 2 ^ q < 2 ^ (53 : Int) * 2 ^ q := mul_lt_mul_of_pos_right hlt hpos
      _ = 2 ^ (53 + q) := (zpow_add₀ (by norm_num) _ _).symm
      _ ≤ limit := zpow_le_zpow_right₀ (by norm_num) (by omega)

/-- The nearest double has the rounded magnitude, unless that is too large. -/
theorem hasMagnitude_nearest (s : Sign) (hv : 0 < v) (h0 : rounded v ≠ 0)
    (hlt : rounded v < limit) : HasMagnitude (.ofModel (.pack (nearest s v))) s (rounded v) := by
  obtain ⟨m, q, hc, hnearest, hvalue⟩ := exists_nearest_eq s hv h0
  rw [hvalue] at hlt
  refine ⟨m, q, hc.pos, ?_, hvalue.symm⟩
  rw [hnearest]
  exact unpack_pack hc (hc.lt_limit_iff.1 hlt) s

theorem isFinite_nearest (s : Sign) (hv : 0 < v) (hle : limit ≤ rounded v) :
    (Float.ofModel (.pack (nearest s v))).isFinite = false := by
  have h0 : rounded v ≠ 0 := (limit_pos.trans_le hle).ne'
  obtain ⟨m, q, hc, hnearest, hvalue⟩ := exists_nearest_eq s hv h0
  have hq : 971 < q := by
    rw [hvalue] at hle
    exact not_le.1 fun hq => hle.not_gt (hc.lt_limit_iff.2 hq)
  rw [hnearest, pack_of_exponent_gt hc.pos hq s]
  cases s <;> rfl

/-- The last place of a product of doubles is never beyond the one that it is rounded to. -/
theorem add_le_exponentOf_mul {m n : ℕ} {p q : Int} (hm : Canonical m p) (hn : Canonical n q) :
    p + q ≤ exponentOf (m * 2 ^ p * (n * 2 ^ q)) := by
  have hpos : (0 : ℚ) < m * 2 ^ p * (n * 2 ^ q) :=
    mul_pos (IsDouble.pos ⟨m, p, hm, rfl⟩) (IsDouble.pos ⟨n, q, hn, rfl⟩)
  have hlow : (2 : ℚ) ^ ((m.log2 : Int) + n.log2 + (p + q)) ≤ m * 2 ^ p * (n * 2 ^ q) := by
    have hm2 : (2 : ℚ) ^ m.log2 ≤ m := by exact_mod_cast Nat.log2_self_le hm.pos.ne'
    have hn2 : (2 : ℚ) ^ n.log2 ≤ n := by exact_mod_cast Nat.log2_self_le hn.pos.ne'
    rw [zpow_add₀ (by norm_num), zpow_add₀ (by norm_num), zpow_add₀ (by norm_num), zpow_natCast,
      zpow_natCast]
    calc (2 : ℚ) ^ m.log2 * 2 ^ n.log2 * (2 ^ p * 2 ^ q)
        = 2 ^ m.log2 * 2 ^ p * (2 ^ n.log2 * 2 ^ q) := by ring
      _ ≤ m * 2 ^ p * (n * 2 ^ q) := by gcongr
  have hlog : (m.log2 : Int) + n.log2 + (p + q) ≤ Int.log 2 ((m : ℚ) * 2 ^ p * (n * 2 ^ q)) :=
    (Int.zpow_le_iff_le_log (b := 2) (by norm_num) hpos).1 (by exact_mod_cast hlow)
  have hnormal {k : ℕ} {e : Int} (hk : Canonical k e) : k.log2 = 52 ∨ e = -1074 := by
    rcases hk.normal with h | h
    · exact .inl (log2_of_normal h hk.lt)
    · exact .inr h
  have hp := hm.least_le
  have hq := hn.least_le
  rw [exponentOf]
  rcases hnormal hm with hm' | hm' <;> rcases hnormal hn with hn' | hn' <;> omega

theorem mul_eq_rounded (h : HasMagnitude x s v) (h' : HasMagnitude y t w) :
    x * y = .ofModel (.pack (nearest (s * t) (v * w))) := by
  obtain ⟨m, p, hm, hx, rfl⟩ := h
  obtain ⟨n, q, hn, hy, rfl⟩ := h'
  rw [mul_eq_pack, hx, hy, mul_eq_nearest s t p q hm hn
    (add_le_exponentOf_mul (canonical_of_unpack hx) (canonical_of_unpack hy))]

theorem div_eq_rounded (h : HasMagnitude x s v) (h' : HasMagnitude y t w) :
    x / y = .ofModel (.pack (nearest (s / t) (v / w))) := by
  obtain ⟨m, p, hm, hx, rfl⟩ := h
  obtain ⟨n, q, hn, hy, rfl⟩ := h'
  rw [div_eq_pack, hx, hy, div_eq_nearest s t p q hm hn]

theorem HasMagnitude.mul (h : HasMagnitude x s v) (h' : HasMagnitude y t w)
    (h0 : rounded (v * w) ≠ 0) (hlt : rounded (v * w) < limit) :
    HasMagnitude (x * y) (s * t) (rounded (v * w)) := by
  rw [mul_eq_rounded h h']
  exact hasMagnitude_nearest _ (mul_pos h.isDouble.pos h'.isDouble.pos) h0 hlt

theorem HasMagnitude.div (h : HasMagnitude x s v) (h' : HasMagnitude y t w)
    (h0 : rounded (v / w) ≠ 0) (hlt : rounded (v / w) < limit) :
    HasMagnitude (x / y) (s / t) (rounded (v / w)) := by
  rw [div_eq_rounded h h']
  exact hasMagnitude_nearest _ (div_pos h.isDouble.pos h'.isDouble.pos) h0 hlt

theorem rank_zero_div (h : rank x = 0) (h' : HasMagnitude y t w) : rank (x / y) = 0 := by
  obtain ⟨s, hs⟩ := unpack_of_rank h
  obtain ⟨n, q, hn, hy, -⟩ := h'
  rw [div_eq_pack, hs, hy]
  exact rank_pack_zero _

theorem hasMagnitude_ofNat {n : ℕ} (hn : 0 < n) (hle : n ≤ 2 ^ 53) :
    HasMagnitude (Float.ofNat n) .positive n := by
  rcases hle.lt_or_eq with hlt | rfl
  · have hone : Float.ofNat n = n.toUInt64.toFloat * 1.0 := by
      show Float.ofScientific n false 0 = _
      rw [Float.ofScientific, dif_pos ⟨hlt, by norm_num⟩]
      rfl
    rw [hone, mul_one]
    exact holds_toFloat hn hlt
  · exact holds_of_isNatural (by decide +kernel)

/-- The whole number nearest to a magnitude, halves upwards. -/
def halfUp (v : ℚ) : ℕ := ⌊v + 1 / 2⌋₊

theorem halfUp_eq_iff (hv : 0 ≤ v) {n : ℕ} :
    halfUp v = n ↔ (n : ℚ) - 1 / 2 ≤ v ∧ v < n + 1 / 2 := by
  rw [halfUp, Nat.floor_eq_iff (by linarith)]
  constructor <;> rintro ⟨hlow, hhigh⟩ <;> constructor <;> linarith

theorem halfUp_div (m : ℕ) {u : ℕ} (hu : 0 < u) : halfUp ((m : ℚ) / u) = (2 * m + u) / (2 * u) := by
  have hu' : (u : ℚ) ≠ 0 := Nat.cast_ne_zero.2 hu.ne'
  have hsum : (m : ℚ) / u + 1 / 2 = ((2 * m + u : ℕ) : ℚ) / (2 * u : ℕ) := by
    push_cast
    field_simp
  rw [halfUp, hsum, Nat.floor_div_eq_div]

theorem halfUp_natCast (n : ℕ) : halfUp n = n := by
  rw [halfUp, Nat.floor_eq_iff (by positivity)]
  constructor <;> linarith

theorem IsDouble.whole (hv : IsDouble v) (hle : 2 ^ 52 ≤ v) : (halfUp v : ℚ) = v := by
  rcases hv.multiple_or_lt 0 with ⟨n, hn⟩ | ⟨-, hlt⟩
  · rw [zpow_zero, MulOneClass.mul_one] at hn
    rw [hn, halfUp_natCast]
  · norm_num at hlt hle
    linarith

theorem rank_signed_zero (s : Sign) : rank (signed s 0.0) = 0 := by cases s <;> decide

theorem round_cases (h : HasMagnitude x s v) :
    (halfUp v = 0 ∧ rank (round x) = 0) ∨ (halfUp v ≠ 0 ∧ HasMagnitude (round x) s (halfUp v)) := by
  obtain ⟨m, q, hm, hx, rfl⟩ := h
  have hc := canonical_of_unpack hx
  rw [round, hx]
  by_cases hq : 0 ≤ q
  · have hwhole : (m : ℚ) * 2 ^ q = (m * 2 ^ q.toNat : ℕ) := by
      push_cast
      rw [← zpow_natCast, Int.toNat_of_nonneg hq]
    have hne : halfUp ((m : ℚ) * 2 ^ q) ≠ 0 := by
      rw [hwhole, halfUp_natCast]
      exact (Nat.mul_pos hm (Nat.two_pow_pos _)).ne'
    refine .inr ⟨hne, ?_⟩
    simp only [if_pos hq]
    refine ⟨m, q, hm, hx, ?_⟩
    rw [hwhole, halfUp_natCast]
  · have hunit : 0 < 2 ^ (-q).toNat := Nat.two_pow_pos _
    have hfrac : (m : ℚ) * 2 ^ q = (m : ℚ) / (2 ^ (-q).toNat : ℕ) := by
      push_cast
      rw [div_eq_mul_inv, ← zpow_natCast, ← zpow_neg]
      congr 2
      omega
    have hhalf : halfUp ((m : ℚ) * 2 ^ q) = (2 * m + 2 ^ (-q).toNat) / (2 * 2 ^ (-q).toNat) := by
      rw [hfrac, halfUp_div m hunit]
    have hlt : (2 * m + 2 ^ (-q).toNat) / (2 * 2 ^ (-q).toNat) < 2 ^ 53 := by
      rw [Nat.div_lt_iff_lt_mul (by omega)]
      have := hc.lt
      nlinarith
    simp only [if_neg hq, Nat.pow_eq]
    rw [hhalf]
    by_cases h0 : (2 * m + 2 ^ (-q).toNat) / (2 * 2 ^ (-q).toNat) = 0
    · refine .inl ⟨h0, ?_⟩
      rw [h0]
      exact rank_signed_zero s
    · exact .inr ⟨h0, (hasMagnitude_ofNat (Nat.pos_of_ne_zero h0) hlt.le).signed s⟩

theorem Canonical.lt_iff {m n : ℕ} {p q : Int} (hm : Canonical m p) (hn : Canonical n q) :
    (m : ℚ) * 2 ^ p < n * 2 ^ q ↔ p < q ∨ p = q ∧ m < n := by
  have hless {k l : ℕ} {d e : Int} (hk : Canonical k d) (hl : Canonical l e) (hde : d < e) :
      (k : ℚ) * 2 ^ d < l * 2 ^ e := by
    have hleast := hk.least_le
    have hnormal : (2 : ℚ) ^ 52 ≤ l := by exact_mod_cast hl.normal.resolve_right (by omega)
    have hk' : (k : ℚ) < 2 ^ 53 := by exact_mod_cast hk.lt
    calc (k : ℚ) * 2 ^ d < 2 ^ 53 * 2 ^ d :=
          mul_lt_mul_of_pos_right hk' (zpow_pos (by norm_num) d)
      _ = 2 ^ 52 * 2 ^ (d + 1) := by rw [zpow_add₀ (by norm_num)]; ring
      _ ≤ 2 ^ 52 * 2 ^ e :=
          mul_le_mul_of_nonneg_left (zpow_le_zpow_right₀ (by norm_num) hde) (by norm_num)
      _ ≤ l * 2 ^ e := mul_le_mul_of_nonneg_right hnormal (zpow_pos (by norm_num) e).le
  rcases lt_trichotomy p q with h | rfl | h
  · exact iff_of_true (hless hm hn h) (.inl h)
  · rw [mul_lt_mul_iff_left₀ (zpow_pos (by norm_num) p), Nat.cast_lt]
    exact ⟨fun h => .inr ⟨rfl, h⟩, fun h => (h.resolve_left (lt_irrefl p)).2⟩
  · exact iff_of_false (hless hn hm h).not_gt (by omega)

theorem HasMagnitude.lt_iff (h : HasMagnitude x .positive v) (h' : HasMagnitude y .positive w) :
    x < y ↔ v < w := by
  obtain ⟨m, p, hm, hx, rfl⟩ := h
  obtain ⟨n, q, hn, hy, rfl⟩ := h'
  rw [(canonical_of_unpack hx).lt_iff (canonical_of_unpack hy)]
  have hlt : x < y ↔ UnpackedFloat.lt x.toModel.unpack y.toModel.unpack = true := decide_eq_true_iff
  rw [hlt, hx, hy]
  show ((some ((compare p q).then (compare m n)) == some .lt) = true) ↔ _
  rw [beq_iff_eq, Option.some_inj, Ordering.then_eq_lt, compare_lt_iff_lt, compare_eq_iff_eq,
    compare_lt_iff_lt]

theorem equalUpToZero_of_beq {u w : UnpackedFloat} (h : UnpackedFloat.beq u w = true) :
    EqualUpToZero u w := by
  cases u with
  | notANumber => cases h
  | zero a =>
    cases w with
    | zero b => exact .inr ⟨⟨a, rfl⟩, b, rfl⟩
    | notANumber => cases h
    | infinity b => cases b <;> cases h
    | finite b n q hn => cases b <;> cases h
  | infinity a =>
    cases w with
    | infinity b => cases a <;> cases b <;> first | exact .inl rfl | cases h
    | notANumber => cases a <;> cases h
    | zero b => cases a <;> cases h
    | finite b n q hn => cases a <;> cases b <;> cases h
  | finite a m p hm =>
    cases w with
    | finite b n q hn =>
      have hcompare (heq : (compare p q).then (compare m n) = .eq) : p = q ∧ m = n := by
        rwa [Ordering.then_eq_eq, compare_eq_iff_eq, compare_eq_iff_eq] at heq
      cases a <;> cases b
      · obtain ⟨rfl, rfl⟩ := hcompare (by
          have heq : some ((compare p q).then (compare m n)).swap = some .eq := beq_iff_eq.1 h
          rwa [Option.some_inj, Ordering.swap_eq_eq] at heq)
        exact .inl rfl
      · cases h
      · cases h
      · obtain ⟨rfl, rfl⟩ := hcompare (Option.some_inj.1 (beq_iff_eq.1 h))
        exact .inl rfl
    | notANumber => cases a <;> cases h
    | zero b => cases a <;> cases h
    | infinity b => cases a <;> cases b <;> cases h

theorem beq_self_of_not_nan {u : UnpackedFloat} (h : u.isNaN = false) :
    UnpackedFloat.beq u u = true := by
  cases u with
  | notANumber => cases h
  | zero a => rfl
  | infinity a => cases a <;> rfl
  | finite a m p hm =>
    have hcompare : (compare p p).then (compare m m) = .eq := by
      rw [Ordering.then_eq_eq, compare_eq_iff_eq, compare_eq_iff_eq]
      exact ⟨rfl, rfl⟩
    cases a with
    | positive => exact beq_iff_eq.2 (congrArg some hcompare)
    | negative => exact beq_iff_eq.2 (congrArg (fun o => some (Ordering.swap o)) hcompare)

theorem beq_iff_same (hx : x.isNaN = false) : (x == y) = true ↔ same x y = true := by
  constructor
  · intro h
    rw [← ofModel_pack (x := x) rfl]
    exact same_of_equalUpToZero (equalUpToZero_of_beq h)
  · intro h
    rcases eq_of_same h with rfl | ⟨hx0, hy0⟩
    · exact beq_self_of_not_nan hx
    · rcases eq_zero_of_rank hx0 with rfl | rfl <;> rcases eq_zero_of_rank hy0 with rfl | rfl <;>
        decide

theorem beq_self_of_isFinite (h : x.isFinite = true) : (x == x) = true :=
  (beq_iff_same (isNaN_of_isFinite h)).2 (same_self x)

theorem HasMagnitude.beq_iff (h : HasMagnitude x s v) (h' : HasMagnitude y s w) :
    (x == y) = true ↔ v = w := by
  rw [beq_iff_same (isNaN_of_isFinite h.isFinite)]
  constructor
  · intro hsame
    rcases eq_of_same hsame with rfl | ⟨h0, -⟩
    · exact (h.inj h').2
    · exact absurd h0 h.rank_ne_zero
  · rintro rfl
    rw [h.unique h']
    exact same_self y

theorem HasMagnitude.le_iff (h : HasMagnitude x .positive v) (h' : HasMagnitude y .positive w) :
    x ≤ y ↔ v ≤ w := by
  have hle : x ≤ y ↔ UnpackedFloat.le x.toModel.unpack y.toModel.unpack = true := decide_eq_true_iff
  have hlt : x < y ↔ UnpackedFloat.lt x.toModel.unpack y.toModel.unpack = true := decide_eq_true_iff
  have heq : (x == y) = true ↔ UnpackedFloat.beq x.toModel.unpack y.toModel.unpack = true := .rfl
  rw [le_iff_lt_or_eq, ← h.lt_iff h', ← h.beq_iff h', hle, hlt, heq, UnpackedFloat.le,
    UnpackedFloat.lt, UnpackedFloat.beq, beq_iff_eq, beq_iff_eq]
  match UnpackedFloat.compare x.toModel.unpack y.toModel.unpack with
  | none => decide
  | some .lt => decide
  | some .eq => decide
  | some .gt => decide

theorem HasMagnitude.nonneg_iff (h : HasMagnitude x s v) : 0 ≤ x ↔ s = .positive := by
  obtain ⟨m, q, hm, hx, rfl⟩ := h
  have hle : 0 ≤ x ↔ UnpackedFloat.le (0 : Float).toModel.unpack x.toModel.unpack = true :=
    decide_eq_true_iff
  rw [hle, hx]
  cases s
  · exact iff_of_false Bool.false_ne_true nofun
  · exact iff_of_true rfl rfl

def exactMagnitude (x : Float) : ℚ :=
  match x.toModel.unpack with
  | .finite _ m q _ => m * 2 ^ q
  | _ => 0

theorem HasMagnitude.exactMagnitude_eq (h : HasMagnitude x s v) : exactMagnitude x = v := by
  obtain ⟨m, q, hm, hx, rfl⟩ := h
  rw [exactMagnitude, hx]

theorem exactMagnitude_of_rank (h : rank x = 0) : exactMagnitude x = 0 := by
  obtain ⟨s, hs⟩ := unpack_of_rank h
  rw [exactMagnitude, hs]

theorem exactMagnitude_of_not_finite (h : x.isFinite = false) : exactMagnitude x = 0 := by
  have hunpack : x.toModel.unpack.isFinite = false := h
  rw [exactMagnitude]
  cases hu : x.toModel.unpack with
  | finite s m q hm =>
    rw [hu] at hunpack
    cases hunpack
  | _ => rfl

end Binary64
end ComplexAlgebra
