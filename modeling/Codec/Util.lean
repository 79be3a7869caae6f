import Codec.Io.Copy
import Mathlib.Data.Int.Bitwise

/-!
# Shared helpers: `Discard`, `Roundup`, `CheckTrailingNotZeros`

The toolbox every component uses to skip bytes, compute padding and validate what follows a
decoded payload.

`discard` is the one helper with two paths. For `n ≤ BUFFER_SIZE` it makes a single `Read` into
the shared scratch array; beyond that it hands the work to `io.CopyN(io.Discard, r, n)`. The slow
path skips exactly `n` bytes on every reader that only ever ends (`discard_slow`), but the fast
path skips whatever the one read returned: on a reader answering with fewer bytes, or with data
together with `io.EOF`, the two disagree (`discard_fast_short`, `discard_fast_eof`).

`roundup` is `Roundup` on the mathematical integers; `roundupBits` is the same bit arithmetic at
a Go integer type `T` (`IntType`: width and signedness), wrapping as Go does. For an alignment
that is a power of two and an `n ≥ 0` with `n + align - 1` within `T` the two agree, and give the
least multiple of the alignment at or above `n`; the padding after an aligned count `c` plus `s`
is the padding after `s`, at every width and with no bound (`roundup_power_of_two`).
-/

namespace Codec

variable {σ : Type}

/-! ## Constants -/

/-- Go's `BUFFER_SIZE`: the size of the shared zero page and scratch array. -/
def bufferSize : Nat := 4096

/-- Go's `MAX_PADDING`: the most trailing bytes a decoder tolerates. -/
def maxPadding : Nat := 1024

/-- Go's `CHUNK_SIZE`: the size of the pooled copy buffer. -/
def chunkSize : Nat := 32 * 1024

/-! ## Discard -/

/-- Go's `Discard(r, n)`: skip `n` bytes of `r`, with one read into the scratch array when
`n ≤ BUFFER_SIZE` and `io.CopyN(io.Discard, r, n)` beyond. -/
def discard (r : IoReader σ) (n : Int) (s : σ) : (Int × Option GoErr) × σ :=
  if n = 0 then ((0, none), s)
  else if n < 0 then ((0, some .discardNegative), s)
  else if n ≤ bufferSize then
    let g := r.read n.toNat s
    ((g.1.bytes.length, g.1.err), g.2)
  else
    let res := r.limit.discardFrom (n.toNat + 1) (s, n)
    (copyNResult n res.1.1 res.1.2, res.2.1)

/-- The slow path of `discard`, `io.CopyN(io.Discard, r, n)`, on its own. -/
def discardCopy (r : IoReader σ) (n : Nat) (s : σ) : (Int × Option GoErr) × σ :=
  let res := r.limit.discardFrom (n + 1) (s, n)
  (copyNResult n res.1.1 res.1.2, res.2.1)

section Discard

variable {r : IoReader σ} {view : σ → List UInt8}

@[simp] theorem discard_zero (s : σ) : discard r 0 s = ((0, none), s) := rfl

theorem discard_fast {n : Nat} (h0 : 0 < n) (hn : n ≤ bufferSize) (s : σ) :
    discard r n s = ((((r.read n s).1.bytes.length : Int), (r.read n s).1.err), (r.read n s).2) := by
  have h1 : ¬ (n : Int) = 0 := by omega
  have h2 : ¬ (n : Int) < 0 := by omega
  have h3 : (n : Int) ≤ (bufferSize : Int) := by exact_mod_cast hn
  simp only [discard, h1, h2, h3, if_false, if_true, Int.toNat_ofNat]

theorem discard_slow {n : Nat} (hn : bufferSize < n) (s : σ) :
    discard r n s = discardCopy r n s := by
  have h1 : ¬ (n : Int) = 0 := by unfold bufferSize at hn; omega
  have h2 : ¬ (n : Int) < 0 := by omega
  have h3 : ¬ (n : Int) ≤ (bufferSize : Int) := by exact_mod_cast Nat.not_le.mpr hn
  simp only [discard, discardCopy, h1, h2, h3, if_false, Int.toNat_ofNat]

/-- **The slow path skips exactly `n` bytes.** On a reader that only ever ends, the
`io.CopyN` path of `discard` consumes the next `n` bytes and succeeds when they are there, and
otherwise consumes all that is left and reports `io.EOF`. -/
theorem discardCopy_spec (h : r.Delivers view) (hc : r.Clean) (n : Nat) (s : σ) :
    (discardCopy r n s).1 = (if n ≤ (view s).length then ((n : Int), none)
        else (((view s).length : Int), some GoErr.eof)) ∧
      view (discardCopy r n s).2 = (view s).drop n :=
  h.discardCopyN hc n s

/-- On any reader, both paths of `discard` count exactly the bytes the reader handed over. -/
theorem IoReader.Records.discarded {log : σ → List UInt8} (h : r.Records log) (n : Int) (s : σ) :
    ∃ X, (discard r n s).1.1 = X.length ∧ log (discard r n s).2 = log s ++ X := by
  unfold discard
  split
  · exact ⟨[], rfl, by simp⟩
  split
  · exact ⟨[], rfl, by simp⟩
  split
  · exact ⟨_, rfl, h _ _⟩
  · obtain ⟨X, h1, h2⟩ := h.limit.drain 8192 (n.toNat + 1) [] (s, n)
    exact ⟨X, by simp [IoReader.discardFrom, h1], h2⟩

/-- **Discard on a reader that fills its reads.** Skipping fewer bytes than are left skips
exactly those and succeeds, on either path. -/
theorem discard_fills (h : r.Delivers view) (hc : r.Clean) (hf : r.Fills view) {n : Nat} {s : σ}
    (hn : n < (view s).length) :
    (discard r n s).1 = ((n : Int), none) ∧ view (discard r n s).2 = (view s).drop n := by
  rcases Nat.eq_zero_or_pos n with rfl | h0
  · simp
  by_cases hb : n ≤ bufferSize
  · rw [discard_fast h0 hb]
    have hv : view (r.read n s).2 = (view s).drop n := by
      rw [h.view_eq, hf n s, List.length_take, Nat.min_eq_left hn.le]
    have herr : (r.read n s).1.err = none := by
      refine (hc n s).resolve_right fun he => ?_
      have := h.eof_at_end n s he
      rw [hv, List.drop_eq_nil_iff] at this
      omega
    simp [hf n s, herr, hv, Nat.min_eq_left hn.le]
  · rw [discard_slow (by omega)]
    have := discardCopy_spec h hc n s
    rwa [if_pos hn.le] at this

/-- **Discard at the end of a stream** skips nothing and reports `io.EOF`, on either path. -/
theorem discard_at_end (h : r.Delivers view) (hc : r.Clean) {n : Nat} (hn : 0 < n) {s : σ}
    (he : view s = []) : (discard r n s).1 = (0, some .eof) := by
  by_cases hb : n ≤ bufferSize
  · have hbytes := h.bytes_nil_of_end (n := n) he
    rw [discard_fast hn hb, hbytes, (hc n s).resolve_left (h.progress n s hn hbytes)]
    rfl
  · rw [discard_slow (by omega)]
    have := (discardCopy_spec h hc n s).1
    rwa [he, if_neg (by simp; omega)] at this

/-- `Discard` does not move a stalled reader. -/
theorem discard_stalled {s : σ} (h : r.Stalled s) (n : Int) : (discard r n s).2 = s := by
  unfold discard
  split
  · rfl
  split
  · rfl
  split
  · exact (h n.toNat).2.2
  · exact congrArg Prod.fst ((h.limit n).drain 8192 (n.toNat + 1) [])

/-- `Discard` keeps what every read keeps. -/
theorem IoReader.Keeps.discard {P : σ → Prop} (h : r.Keeps P) (n : Int) {s : σ} (hs : P s) :
    P (discard r n s).2 := by
  unfold Codec.discard IoReader.discardFrom
  split_ifs
  · exact hs
  · exact hs
  · exact h _ s hs
  · exact h.limit.drain 8192 _ [] (s, n) hs

/-- A stream of ten bytes whose first read hands over three: a `bufio.Reader` with three bytes
buffered, or a network connection, answers this way. -/
def tenBytesShortRead : Source := ⟨List.replicate 10 0, 0, [⟨3, false, none⟩]⟩

/-- **The fast path of `Discard` stops at a short read.** Asked to skip 5 of ten bytes from a
reader whose first read returns three, `Discard` skips 3 and reports success, while
`io.CopyN(io.Discard, r, 5)` skips 5. -/
theorem discard_fast_path_diverges :
    discard Source.reader 5 tenBytesShortRead = ((3, none), ⟨List.replicate 10 0, 3, []⟩) ∧
      discardCopy Source.reader 5 tenBytesShortRead = ((5, none), ⟨List.replicate 10 0, 5, []⟩) := by
  decide

end Discard

/-! ## Roundup -/

/-- Go's `Roundup(n, align) = (n + (align - 1)) &^ (align - 1)`, on the mathematical integers
(Go's `int`/`int64` wherever the sum does not overflow). -/
def roundup (n align : Int) : Int := Int.ldiff (n + (align - 1)) (align - 1)

/-- Clearing the low `k` bits rounds down to a multiple of `2^k`. -/
theorem ldiff_two_pow_sub_one (x k : Nat) : Nat.ldiff x (2 ^ k - 1) = 2 ^ k * (x / 2 ^ k) := by
  apply Nat.eq_of_testBit_eq
  intro j
  have hx := Nat.testBit_mul_pow_two_add (x / 2 ^ k) (Nat.mod_lt x (Nat.two_pow_pos k)) j
  rw [Nat.div_add_mod] at hx
  rw [Nat.testBit_ldiff, Nat.testBit_two_pow_sub_one, Nat.testBit_mul_pow_two, hx]
  by_cases hj : j < k
  · simp [hj]
  · simp [hj, Nat.le_of_not_lt hj]

/-- **Roundup to a power of two** is the least multiple of it at or above `n`. -/
theorem roundup_two_pow (n k : Nat) :
    roundup n (2 ^ k) = ((2 ^ k * ((n + 2 ^ k - 1) / 2 ^ k) : Nat) : Int) := by
  have h1 : 1 ≤ 2 ^ k := Nat.one_le_two_pow
  have e : (2 : Int) ^ k = ((2 ^ k : Nat) : Int) := by push_cast; rfl
  rw [roundup, e]
  generalize hc : 2 ^ k = c at *
  rw [show (n : Int) + ((c : Int) - 1) = ((n + c - 1 : Nat) : Int) by omega,
    show (c : Int) - 1 = ((c - 1 : Nat) : Int) by omega, ← hc]
  exact congrArg _ (ldiff_two_pow_sub_one _ k)

/-- With alignment `0` the mask is all ones, and `Roundup` of a positive `n` is `0`. -/
theorem roundup_zero {n : Nat} (hn : 0 < n) : roundup n 0 = 0 := by
  obtain ⟨m, rfl⟩ : ∃ m, n = m + 1 := ⟨n - 1, by omega⟩
  show Int.ldiff ((m : Int) + 1 + (0 - 1)) (0 - 1) = 0
  rw [show (m : Int) + 1 + (0 - 1) = (m : Int) by omega]
  show ((m &&& 0 : Nat) : Int) = 0
  simp

theorem roundup_one (n : Nat) : roundup n 1 = n := by
  simpa using roundup_two_pow n 0

/-- Rounding `0` up gives `0` for every positive alignment, a power of two or not. -/
theorem roundup_zero_left {A : Int} (hA : 0 < A) : roundup 0 A = 0 := by
  obtain ⟨m, hm⟩ : ∃ m : Nat, A - 1 = m := ⟨(A - 1).toNat, by omega⟩
  rw [roundup, Int.zero_add, hm]
  show ((Nat.ldiff m m : Nat) : Int) = 0
  rw [show Nat.ldiff m m = 0 from Nat.eq_of_testBit_eq fun j => by simp [Nat.testBit_ldiff]]
  rfl

theorem le_roundup (n k : Nat) : (n : Int) ≤ roundup n (2 ^ k) := by
  have h1 := Nat.div_add_mod (n + 2 ^ k - 1) (2 ^ k)
  have h2 := Nat.mod_lt (n + 2 ^ k - 1) (Nat.two_pow_pos k)
  rw [roundup_two_pow]
  exact_mod_cast (by omega : n ≤ 2 ^ k * ((n + 2 ^ k - 1) / 2 ^ k))

/-- Roundup to `2^k` passes over a multiple of `2^k`. -/
theorem roundup_mul_add (m n k : Nat) :
    roundup ((2 ^ k * m + n : Nat) : Int) (2 ^ k) = 2 ^ k * m + roundup n (2 ^ k) := by
  rw [roundup_two_pow, roundup_two_pow,
    show 2 ^ k * m + n + 2 ^ k - 1 = 2 ^ k * m + (n + 2 ^ k - 1) by have := Nat.one_le_two_pow (n := k); omega,
    Nat.mul_add_div (Nat.two_pow_pos k), Nat.mul_add]
  push_cast; rfl

/-! ### Roundup at a Go integer type

`Roundup[T constraints.Integer]` runs on the bits of `T` and wraps as Go's arithmetic does. The
model keeps the bits in a `BitVec T.width` and reads them as `T` does (`IntType.val`). -/

/-- A Go integer type as `constraints.Integer` admits it: its width in bits and whether it is
signed (`int` and `int64` are `⟨64, true⟩`, `uint8` is `⟨8, false⟩`). -/
structure IntType where
  width : Nat
  signed : Bool
  deriving DecidableEq, Repr

namespace IntType

/-- The value a `T` holding the bits `x` has. -/
def val (T : IntType) (x : BitVec T.width) : Int := if T.signed then x.toInt else x.toNat

/-- The largest value of `T`. -/
def max (T : IntType) : Int := if T.signed then 2 ^ (T.width - 1) - 1 else 2 ^ T.width - 1

/-- Go's `int64`, the type `list.ReadFrom` and `Writer.Align` call `Roundup` at. -/
def int64 : IntType := ⟨64, true⟩

theorem max_lt (T : IntType) : T.max < 2 ^ T.width := by
  have h : ((2 ^ (T.width - 1) : Nat) : Int) ≤ (2 ^ T.width : Nat) := by
    exact_mod_cast Nat.pow_le_pow_right (by decide) (Nat.sub_le T.width 1)
  unfold max
  push_cast at h
  split <;> omega

/-- A value that is not negative is the bits read as a natural number. -/
theorem val_eq_toNat_of_nonneg {T : IntType} {x : BitVec T.width} (h : 0 ≤ T.val x) :
    T.val x = x.toNat := by
  obtain ⟨w, _ | _⟩ := T
  · rfl
  · have := x.isLt
    change 0 ≤ x.toInt at h
    change x.toInt = _
    rw [BitVec.toInt_eq_toNat_cond] at h ⊢
    split at * <;> omega

/-- Bits that read as a natural number no larger than `T.max` are that value at `T`. -/
theorem val_eq_toNat_of_le_max {T : IntType} {x : BitVec T.width} (h : (x.toNat : Int) ≤ T.max) :
    T.val x = x.toNat := by
  obtain ⟨_ | w, _ | _⟩ := T
  · rfl
  · rw [BitVec.eq_nil x]; rfl
  · rfl
  · simp only [val, max, if_true, Nat.add_sub_cancel] at h ⊢
    rw [BitVec.toInt_eq_toNat_cond, if_pos]
    have : x.toNat < 2 ^ w := by
      exact_mod_cast (show (x.toNat : Int) < (2 ^ w : Nat) by push_cast; omega)
    rw [Nat.pow_succ]; omega

/-- A multiple of `2^k ≤ 2^T.width` at `T`, negative or not, has bits that are a multiple of
`2^k`. -/
theorem dvd_toNat {T : IntType} {k : Nat} (hk : k ≤ T.width) {c : BitVec T.width}
    (h : (2 ^ k : Int) ∣ T.val c) : 2 ^ k ∣ c.toNat := by
  have hw : (2 ^ k : Int) ∣ ((2 ^ T.width : Nat) : Int) := by exact_mod_cast Nat.pow_dvd_pow 2 hk
  have : (2 ^ k : Int) ∣ c.toNat := by
    unfold val at h
    split at h
    · rw [BitVec.toInt_eq_toNat_cond] at h
      split at h
      · exact h
      · simpa using Int.dvd_add h hw
    · exact h
  exact_mod_cast this

end IntType

/-- Go's `Roundup(n, align)` at a Go integer type of width `w`: the same bit arithmetic on the
bits of `n` and `align`, wrapping as Go's `+` and `-` do. -/
def roundupBits {w : Nat} (n align : BitVec w) : BitVec w := (n + (align - 1)) &&& ~~~(align - 1)

/-- Go's `&^` on bits is `Nat.ldiff` on their values. -/
theorem toNat_andNot {w : Nat} (x m : BitVec w) :
    (x &&& ~~~m).toNat = Nat.ldiff x.toNat m.toNat := by
  apply Nat.eq_of_testBit_eq
  intro i
  rw [BitVec.testBit_toNat, BitVec.getLsbD_and, BitVec.getLsbD_not, Nat.testBit_ldiff,
    BitVec.testBit_toNat, BitVec.testBit_toNat]
  by_cases hi : i < w
  · simp [hi]
  · simp [hi, BitVec.getLsbD_ge x i (by omega)]

/-- `a - 1` does not wrap for a positive `a`. -/
theorem toNat_sub_one {w : Nat} {a : BitVec w} (h0 : 0 < a.toNat) :
    (a - 1).toNat = a.toNat - 1 := by
  have hlt := a.isLt
  have h1 : (1 : BitVec w).toNat = 1 := by simp [Nat.mod_eq_of_lt (show 1 < 2 ^ w by omega)]
  rw [BitVec.toNat_sub, h1, show 2 ^ w - 1 + a.toNat = 2 ^ w + (a.toNat - 1) by omega,
    Nat.add_mod_left, Nat.mod_eq_of_lt (by omega)]

/-- An alignment `2^k` that `w` bits hold has `k < w`. -/
theorem lt_width_of_toNat {w k : Nat} {a : BitVec w} (ha : a.toNat = 2 ^ k) : k < w :=
  (Nat.pow_lt_pow_iff_right (by decide)).mp (ha ▸ a.isLt)

/-- For an alignment `2^k`, `roundupBits` rounds the wrapped sum `n + (2^k - 1)` down to a multiple
of `2^k`. -/
theorem toNat_roundupBits {w k : Nat} {a : BitVec w} (ha : a.toNat = 2 ^ k) (n : BitVec w) :
    (roundupBits n a).toNat = 2 ^ k * ((n.toNat + (2 ^ k - 1)) % 2 ^ w / 2 ^ k) := by
  have h1 := toNat_sub_one (a := a) (by rw [ha]; exact Nat.two_pow_pos k)
  rw [roundupBits, toNat_andNot, BitVec.toNat_add, h1, ha, ldiff_two_pow_sub_one]

/-- **The padding `Roundup(x, 2^k) - x` depends on `x mod 2^k` only**, whether or not the sum
wraps. -/
theorem toNat_roundupBits_sub {w k : Nat} {a : BitVec w} (ha : a.toNat = 2 ^ k) (x : BitVec w) :
    (roundupBits x a - x).toNat = 2 ^ k - 1 - (x.toNat + (2 ^ k - 1)) % 2 ^ k := by
  have hA : 2 ^ k < 2 ^ w := ha ▸ a.isLt
  have hdvd : 2 ^ k ∣ 2 ^ w := Nat.pow_dvd_pow 2 (lt_width_of_toNat ha).le
  have hx : x.toNat < 2 ^ w := x.isLt
  have hAp := Nat.two_pow_pos k
  rw [BitVec.toNat_sub, toNat_roundupBits ha]
  have hyA := Nat.mod_mod_of_dvd (x.toNat + (2 ^ k - 1)) hdvd
  generalize 2 ^ w = M at *
  generalize 2 ^ k = A at *
  have e1 := Nat.div_add_mod ((x.toNat + (A - 1)) % M) A
  have e2 := Nat.mod_add_div (x.toNat + (A - 1)) M
  have hr := Nat.mod_lt (x.toNat + (A - 1)) hAp
  have hq : (x.toNat + (A - 1)) / M < 2 := Nat.div_lt_of_lt_mul (by omega)
  generalize (x.toNat + (A - 1)) / M = q at *
  obtain rfl | rfl : q = 0 ∨ q = 1 := by omega
  · rw [show M - x.toNat + A * ((x.toNat + (A - 1)) % M / A) = M + (A - 1 - (x.toNat + (A - 1)) % A)
      by omega, Nat.add_mod_left, Nat.mod_eq_of_lt (by omega)]
  · rw [show M - x.toNat + A * ((x.toNat + (A - 1)) % M / A) = A - 1 - (x.toNat + (A - 1)) % A
      by omega, Nat.mod_eq_of_lt (by omega)]

/-- The padding after `c + s`, for bits `c` that are a multiple of `2^k`, is the padding after
`s`. -/
theorem roundupBits_pad_shift {w k : Nat} {a : BitVec w} (ha : a.toNat = 2 ^ k) {c : BitVec w}
    (hc : 2 ^ k ∣ c.toNat) (s : BitVec w) :
    roundupBits (c + s) a - (c + s) = roundupBits s a - s := by
  have hdvd : 2 ^ k ∣ 2 ^ w := Nat.pow_dvd_pow 2 (lt_width_of_toNat ha).le
  obtain ⟨j, hj⟩ := hc
  have hcs : (c + s).toNat % 2 ^ k = s.toNat % 2 ^ k := by
    rw [BitVec.toNat_add, hj, Nat.mod_mod_of_dvd _ hdvd, Nat.mul_add_mod]
  apply BitVec.eq_of_toNat_eq
  rw [toNat_roundupBits_sub ha, toNat_roundupBits_sub ha, ← Nat.mod_add_mod, hcs, Nat.mod_add_mod]

/-- `A * ⌈n / A⌉` is a multiple of `A` at or above `n`, and no multiple of `A` at or above `n` is
smaller. -/
theorem ceil_mul_least {A : Nat} (hA : 0 < A) (n : Nat) :
    n ≤ A * ((n + (A - 1)) / A) ∧
      ∀ m : Int, (A : Int) ∣ m → (n : Int) ≤ m → ((A * ((n + (A - 1)) / A) : Nat) : Int) ≤ m := by
  have h2 := Nat.mod_lt (n + (A - 1)) hA
  have h1 := Nat.div_add_mod (n + (A - 1)) A
  generalize (n + (A - 1)) / A = q at *
  refine ⟨by omega, ?_⟩
  rintro m ⟨j, rfl⟩ hn
  have h1' : (A : Int) * q + ((n + (A - 1)) % A : Nat) = n + (A - 1 : Nat) := by exact_mod_cast h1
  have hq : (q : Int) < j + 1 :=
    Int.lt_of_mul_lt_mul_left (a := (A : Int)) (by rw [Int.mul_add, Int.mul_one]; omega) (by omega)
  push_cast
  exact Int.mul_le_mul_of_nonneg_left (by omega) (by omega)

/-- **Roundup is correct for powers of two, at every Go integer type.** For an alignment `a`
holding `2^k` and an `n ≥ 0` with `n + a - 1` within `T`, `Roundup(n, a)` computed on the bits
is `roundup` on the integers and the least multiple of `a` at or above `n`. And for every `c`
that is a multiple of `a` and every `s`, the padding `Roundup(c + s, a) - (c + s)` is
`Roundup(s, a) - s`, with no bound at all: the padding `list.ReadFrom` computes after each item
is the padding `Writer.Align` emits from the running count. -/
theorem roundup_power_of_two (T : IntType) (k : Nat) (a : BitVec T.width) (ha : T.val a = 2 ^ k) :
    (∀ n : BitVec T.width, 0 ≤ T.val n → T.val n + T.val a - 1 ≤ T.max →
      T.val (roundupBits n a) = roundup (T.val n) (T.val a) ∧
        T.val a ∣ T.val (roundupBits n a) ∧ T.val n ≤ T.val (roundupBits n a) ∧
        ∀ m : Int, T.val a ∣ m → T.val n ≤ m → T.val (roundupBits n a) ≤ m) ∧
      ∀ c s : BitVec T.width, T.val a ∣ T.val c →
        roundupBits (c + s) a - (c + s) = roundupBits s a - s := by
  have haN : a.toNat = 2 ^ k := by
    have := IntType.val_eq_toNat_of_nonneg (show 0 ≤ T.val a by
      rw [ha]; exact_mod_cast Nat.zero_le (2 ^ k))
    exact_mod_cast this.symm.trans ha
  rw [ha]
  refine ⟨fun n hn hr => ?_, fun c s hc =>
    roundupBits_pad_shift haN (IntType.dvd_toNat (lt_width_of_toNat haN).le hc) s⟩
  rw [IntType.val_eq_toNat_of_nonneg hn] at hr ⊢
  have hA := Nat.one_le_two_pow (n := k)
  have hmax := T.max_lt
  have hcast : ((n.toNat + (2 ^ k - 1) : Nat) : Int) = n.toNat + 2 ^ k - 1 := by
    push_cast [Nat.cast_sub hA]; omega
  have hfit : n.toNat + (2 ^ k - 1) < 2 ^ T.width := by
    exact_mod_cast (show ((n.toNat + (2 ^ k - 1) : Nat) : Int) < (2 ^ T.width : Nat) by
      rw [hcast]; push_cast; omega)
  have hR : (roundupBits n a).toNat = 2 ^ k * ((n.toNat + (2 ^ k - 1)) / 2 ^ k) := by
    rw [toNat_roundupBits haN, Nat.mod_eq_of_lt hfit]
  obtain ⟨hle, hleast⟩ := ceil_mul_least (Nat.two_pow_pos k) n.toNat
  have hRle : (roundupBits n a).toNat ≤ n.toNat + (2 ^ k - 1) := hR ▸ Nat.mul_div_le _ _
  rw [IntType.val_eq_toNat_of_le_max (Int.le_trans (Int.ofNat_le.mpr hRle) (by rw [hcast]; exact hr)),
    hR]
  refine ⟨?_, ⟨_, by push_cast; rfl⟩, by exact_mod_cast hle,
    fun m hm hn => hleast m (by exact_mod_cast hm) hn⟩
  rw [roundup_two_pow, Nat.add_sub_assoc hA]

theorem roundup_power_of_two_int64 :
    IntType.int64.val 8#64 = 2 ^ 3 ∧ 0 ≤ IntType.int64.val 13#64 ∧
      IntType.int64.val 13#64 + IntType.int64.val 8#64 - 1 ≤ IntType.int64.max ∧
      IntType.int64.val (roundupBits 13#64 8#64) =
        roundup (IntType.int64.val 13#64) (IntType.int64.val 8#64) ∧
      IntType.int64.val 8#64 ∣ IntType.int64.val 16#64 ∧
      roundupBits (16#64 + 5#64) 8#64 - (16#64 + 5#64) = roundupBits 5#64 8#64 - 5#64 :=
  ⟨by decide, by decide, by decide,
    ((roundup_power_of_two IntType.int64 3 8#64 (by decide)).1 13#64 (by decide) (by decide)).1,
    by decide, (roundup_power_of_two IntType.int64 3 8#64 (by decide)).2 16#64 5#64 (by decide)⟩

end Codec
