import Mathlib
/-!
# The pseudo-random generator (`Random.c`)

`initNetwork` draws the initial weights from `Random.c`, the generator of
`java.util.Random` written over `int64_t`: a 48-bit linear congruential
state (`nextBits`), scrambled from the seed by `initSeed`, and
`nextDouble`, which joins a 26-bit and a 27-bit draw into a 53-bit fraction.
`int64_t` and `int32_t` are `BitVec 64` and `BitVec 32`, so every product
wraps modulo `2^64`; `>>` on `int64_t` is the arithmetic shift `sshiftRight`,
the `(int32_t)` cast keeps the low 32 bits (`setWidth`), and the `double`
arithmetic of `nextDouble` is exact, in an ordered field.

`nextBits` ORs its result with `arithmeticMask`, which sign-extends in Java's
manner. The new state is below `2^48`, so it is nonnegative, the mask is all
ones from bit `16 + bits` up, and for `bits` 26 and 27 none of those ones
reaches the 32 bits the cast keeps.

Results:
* `seed_nextBits`: each call replaces the state by `lcgStep` of it, the
  products wrapping harmlessly under the 48-bit mask.
* `toInt_nextBits`: for 26 and 27 bits the result is the top bits of the new
  state.
* `nextDouble_eq`: `nextDouble` is `(top26 * 2^27 + top27) / 2^53`.
* `java_lcg_unit_interval`: the four together, and that `nextDouble` lies in
  `[0, 1)` and `nextDoubleRange r low high` in `[low, high)`.
-/
namespace WasmContracts

/-- Modelled from Random.h: the generator's state. -/
structure Random where
  seed : BitVec 64

namespace Random

/-- mirrors Random.c:4 -/
def multiplier : BitVec 64 := 0x5DEECE66D
/-- mirrors Random.c:5 -/
def addend : BitVec 64 := 0xB
/-- mirrors Random.c:6 -/
def mask : BitVec 64 := (1 <<< 48) - 1
/-- mirrors Random.c:7 -/
def denom : BitVec 64 := 1 <<< 53

/-- mirrors Random.c:9-16: the `int32_t` result, and the generator `r`
points to after the call. -/
def nextBits (r : Random) (bits : Nat) : BitVec 32 × Random :=
  let nextSeed := (r.seed * multiplier + addend) &&& mask
  let sign : BitVec 64 := if BitVec.sle 0 nextSeed then 1 else 0
  let arithmeticMask := ~~~((sign <<< (16 + bits)) - 1)
  ((arithmeticMask ||| nextSeed.sshiftRight (48 - bits)).setWidth 32, ⟨nextSeed⟩)

/-- mirrors Random.c:18-21 -/
def initSeed (seed : BitVec 64) : Random := ⟨(seed ^^^ multiplier) &&& mask⟩

section Doubles

variable {α : Type} [LinearOrderedField α]

/-- mirrors Random.c:28-32: the draw, and the generator after its two calls
of `nextBits`. -/
def nextDouble (r : Random) : α × Random :=
  let first := nextBits r 26
  let v1 : BitVec 64 := first.1.signExtend 64 <<< 27
  let second := nextBits first.2 27
  let v2 : BitVec 64 := second.1.signExtend 64
  (((v1 + v2).toInt : α) / (denom.toInt : α), second.2)

/-- mirrors Random.c:23-26 -/
def nextDoubleRange (r : Random) (low high : α) : α × Random :=
  let d := nextDouble r
  ((high - low) * d.1 + low, d.2)

end Doubles

/-- One draw of the 48-bit generator of `java.util.Random`, on the state as
a number. -/
def lcgStep (x : Nat) : Nat := (x * 0x5DEECE66D + 0xB) % 2 ^ 48

/-! ## The state -/

theorem toNat_mask : mask.toNat = 2 ^ 48 - 1 := rfl

theorem seed_nextBits (r : Random) (bits : Nat) :
    (nextBits r bits).2.seed.toNat = lcgStep r.seed.toNat := by
  simp only [nextBits, lcgStep, BitVec.toNat_and, BitVec.toNat_add, BitVec.toNat_mul, toNat_mask,
    Nat.and_pow_two_sub_one_eq_mod]
  show (r.seed.toNat * 0x5DEECE66D % 2 ^ 64 + 0xB) % 2 ^ 64 % 2 ^ 48 = _
  omega

theorem seed_nextBits_lt (r : Random) (bits : Nat) : (nextBits r bits).2.seed.toNat < 2 ^ 48 := by
  rw [seed_nextBits]
  exact Nat.mod_lt _ (Nat.two_pow_pos 48)

theorem seed_initSeed (seed : BitVec 64) :
    (initSeed seed).seed.toNat = (seed.toNat ^^^ 0x5DEECE66D) % 2 ^ 48 := by
  simp only [initSeed, BitVec.toNat_and, BitVec.toNat_xor, toNat_mask, Nat.and_pow_two_sub_one_eq_mod]
  rfl

/-- After `nextBits` with the widths `bs`, the state is `lcgStep` iterated
once per call. -/
theorem seed_foldl_nextBits (bs : List Nat) (r : Random) :
    (bs.foldl (fun r b => (nextBits r b).2) r).seed.toNat = lcgStep^[bs.length] r.seed.toNat := by
  induction bs generalizing r with
  | nil => rfl
  | cons b bs ih => rw [List.foldl_cons, ih, seed_nextBits, List.length_cons, Function.iterate_succ_apply]

/-! ## The draws -/

theorem int32_of_state {S : BitVec 64} (hS : S.toNat < 2 ^ 48) {b : Nat} (hb : b = 26 ∨ b = 27) :
    (~~~(((if BitVec.sle 0 S then 1 else 0 : BitVec 64) <<< (16 + b)) - 1) |||
      S.sshiftRight (48 - b)).setWidth 32 = (S >>> (48 - b)).setWidth 32 := by
  have hmsb : S.msb = false := BitVec.msb_eq_false_iff_two_mul_lt.2 (by omega)
  have hsign : BitVec.sle 0 S = true := by
    rw [BitVec.sle, BitVec.toInt_eq_toNat_cond S, if_pos (by omega)]
    simp
  have hmask : (~~~(((1 : BitVec 64) <<< (16 + b)) - 1)).setWidth 32 = 0#32 := by
    rcases hb with rfl | rfl <;> decide
  rw [hsign, if_pos rfl, BitVec.sshiftRight_eq_of_msb_false hmsb, BitVec.setWidth_or, hmask, BitVec.zero_or]

theorem nextBits_fst (r : Random) {b : Nat} (hb : b = 26 ∨ b = 27) :
    (nextBits r b).1 = ((nextBits r b).2.seed >>> (48 - b)).setWidth 32 :=
  int32_of_state (seed_nextBits_lt r b) hb

theorem toNat_nextBits (r : Random) {b : Nat} (hb : b = 26 ∨ b = 27) :
    (nextBits r b).1.toNat = (nextBits r b).2.seed.toNat / 2 ^ (48 - b) ∧
      (nextBits r b).1.toNat < 2 ^ b := by
  have hS := seed_nextBits_lt r b
  rw [nextBits_fst r hb, BitVec.toNat_setWidth, BitVec.toNat_ushiftRight, Nat.shiftRight_eq_div_pow]
  rcases hb with rfl | rfl <;> omega

theorem toInt_nextBits (r : Random) {b : Nat} (hb : b = 26 ∨ b = 27) :
    (nextBits r b).1.toInt = ((nextBits r b).2.seed.toNat / 2 ^ (48 - b) : Nat) := by
  obtain ⟨h, hlt⟩ := toNat_nextBits r hb
  rw [BitVec.toInt_eq_toNat_cond, if_pos (by rcases hb with rfl | rfl <;> omega), h]

theorem toNat_signExtend {x : BitVec 32} (h : x.toNat < 2 ^ 31) : (x.signExtend 64).toNat = x.toNat := by
  rw [BitVec.signExtend_eq_not_setWidth_not_of_msb_false (BitVec.msb_eq_false_iff_two_mul_lt.2 (by omega)),
    BitVec.toNat_setWidth, Nat.mod_eq_of_lt (by omega)]

variable {α : Type} [LinearOrderedField α]

theorem nextDouble_eq (r : Random) :
    (nextDouble r : α × Random) =
      ((((nextBits r 26).2.seed.toNat / 2 ^ 22 * 2 ^ 27 +
          (nextBits (nextBits r 26).2 27).2.seed.toNat / 2 ^ 21 : Nat) : α) / 2 ^ 53,
        (nextBits (nextBits r 26).2 27).2) := by
  obtain ⟨h1, hlt1⟩ := toNat_nextBits r (b := 26) (.inl rfl)
  obtain ⟨h2, hlt2⟩ := toNat_nextBits (nextBits r 26).2 (b := 27) (.inr rfl)
  have hsum : ((nextBits r 26).1.signExtend 64 <<< 27 + (nextBits (nextBits r 26).2 27).1.signExtend 64).toNat =
      (nextBits r 26).1.toNat * 2 ^ 27 + (nextBits (nextBits r 26).2 27).1.toNat := by
    rw [BitVec.toNat_add, BitVec.toNat_shiftLeft, toNat_signExtend (by omega), toNat_signExtend (by omega),
      Nat.shiftLeft_eq]
    omega
  have hdenom : (denom.toInt : α) = 2 ^ 53 := by
    rw [show denom.toInt = 2 ^ 53 by decide, Int.cast_pow, Int.cast_ofNat]
  dsimp only [nextDouble]
  rw [hdenom, BitVec.toInt_eq_toNat_cond, hsum, if_pos (by omega), h1, h2, Int.cast_natCast]

theorem nextDouble_mem (r : Random) : 0 ≤ (nextDouble r : α × Random).1 ∧ (nextDouble r : α × Random).1 < 1 := by
  have hS1 := seed_nextBits r 26
  have hS2 := seed_nextBits (nextBits r 26).2 27
  have hN : (nextBits r 26).2.seed.toNat / 2 ^ 22 * 2 ^ 27 +
      (nextBits (nextBits r 26).2 27).2.seed.toNat / 2 ^ 21 < 2 ^ 53 := by
    simp only [lcgStep] at hS1 hS2
    omega
  have h53 : (0 : α) < 2 ^ 53 := pow_pos two_pos 53
  rw [nextDouble_eq]
  exact ⟨div_nonneg (Nat.cast_nonneg _) h53.le, (div_lt_one h53).2 (by exact_mod_cast hN)⟩

theorem nextDoubleRange_mem (r : Random) {low high : α} (h : low < high) :
    low ≤ (nextDoubleRange r low high).1 ∧ (nextDoubleRange r low high).1 < high := by
  obtain ⟨h0, h1⟩ := nextDouble_mem (α := α) r
  have hd : 0 < high - low := sub_pos.2 h
  exact ⟨le_add_of_nonneg_left (mul_nonneg hd.le h0),
    (add_lt_add_right (mul_lt_of_lt_one_right hd h1) low).trans_eq (sub_add_cancel high low)⟩

/-- `Random.c` is the generator of `java.util.Random`: after `initSeed s`
and any calls of `nextBits`, the state is the 48-bit LCG iterated once per
call from the scrambled seed; `nextBits` for 26 or 27 bits returns the top
bits of its new state; and `nextDouble` is the 53-bit fraction they make, in
`[0, 1)`, so that `nextDoubleRange` lies in `[low, high)`. -/
theorem java_lcg_unit_interval :
    (∀ (s : BitVec 64) (bs : List Nat),
      (bs.foldl (fun r b => (nextBits r b).2) (initSeed s)).seed.toNat =
        lcgStep^[bs.length] ((s.toNat ^^^ 0x5DEECE66D) % 2 ^ 48)) ∧
    (∀ (r : Random) (b : Nat), b = 26 ∨ b = 27 →
      (nextBits r b).2.seed.toNat < 2 ^ 48 ∧
        (nextBits r b).1.toInt = ((nextBits r b).2.seed.toNat / 2 ^ (48 - b) : Nat)) ∧
    (∀ r : Random, (nextDouble r : α × Random).1 =
        (((nextBits r 26).2.seed.toNat / 2 ^ 22 * 2 ^ 27 +
          (nextBits (nextBits r 26).2 27).2.seed.toNat / 2 ^ 21 : Nat) : α) / 2 ^ 53 ∧
      0 ≤ (nextDouble r : α × Random).1 ∧ (nextDouble r : α × Random).1 < 1) ∧
    (∀ (r : Random) (low high : α), low < high →
      low ≤ (nextDoubleRange r low high).1 ∧ (nextDoubleRange r low high).1 < high) :=
  ⟨fun s bs => by rw [seed_foldl_nextBits, seed_initSeed],
    fun r b hb => ⟨seed_nextBits_lt r b, toInt_nextBits r hb⟩,
    fun r => ⟨congrArg Prod.fst (nextDouble_eq r), nextDouble_mem r⟩,
    fun r _ _ h => nextDoubleRange_mem r h⟩

-- The draw below is evaluated by `decide`; Batteries seals the rational operations.
attribute [local semireducible] Rat.add Rat.mul Rat.sub Rat.inv

theorem java_random_seed_42 :
    (nextDouble (initSeed 42) : ℚ × Random).1 = 6553311036568663 / 9007199254740992 ∧
      (-1 ≤ (nextDoubleRange (initSeed 42) (-1 : ℚ) 1).1 ∧ (nextDoubleRange (initSeed 42) (-1 : ℚ) 1).1 < 1) :=
  ⟨by decide, (java_lcg_unit_interval (α := ℚ)).2.2.2 _ _ _ (by decide)⟩

end Random

end WasmContracts
