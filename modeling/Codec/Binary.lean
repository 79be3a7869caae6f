import Codec.Bytes

/-!
# Byte order and fixed-layout records (`encoding/binary`)

Every primitive encoder of the library goes through a `binary.ByteOrder` (`PutUint16`,
`Uint32`, ...), and the fixed record codec goes through `binary.Write` and `binary.Read`. This file
models both.

* `ByteOrder.put k v` / `ByteOrder.get` — the `k` bytes of `v` in big- or little-endian order;
  `get_put` is the round trip.
* `Layout` — the fixed-layout record types `binary.Size` accepts: booleans, fixed-width integers
  (`word k`, the `k`-byte `uintN`/`intN`, held as their bits), blank `_` fields, arrays, and
  structs (`pair` of a first field and the rest, ending in `unit`). `Layout.Val` is the Go type
  a layout describes, `encode`/`decode` are `binary.Write`'s and `binary.Read`'s wire format, and
  `decode_encode` is their round trip.
-/

namespace Codec

/-! ## Byte order -/

/-- The two `binary.ByteOrder`s of the library, `BE` and `LE`. -/
inductive ByteOrder where
  | bigEndian
  | littleEndian
  deriving DecidableEq, Repr

/-- The `k` bytes of `v` least significant first (`v` taken modulo `2^(8k)`). -/
def leBytes : Nat → Nat → List UInt8
  | 0, _ => []
  | k + 1, v => UInt8.ofNat v :: leBytes k (v / 256)

/-- The number whose bytes, least significant first, are `bs`. -/
def leValue : List UInt8 → Nat
  | [] => 0
  | b :: bs => b.toNat + 256 * leValue bs

/-- Go's `order.PutUintN(buf, v)`: the `k` bytes of `v` in the order's byte order. -/
def ByteOrder.put (o : ByteOrder) (k v : Nat) : List UInt8 :=
  match o with
  | .bigEndian => (leBytes k v).reverse
  | .littleEndian => leBytes k v

/-- Go's `order.UintN(buf)`: the number the bytes `bs` spell in the order's byte order (the
shifted bytes do not overlap, so Go's `|` is `+`). -/
def ByteOrder.get (o : ByteOrder) (bs : List UInt8) : Nat :=
  match o with
  | .bigEndian => leValue bs.reverse
  | .littleEndian => leValue bs

@[simp] theorem length_leBytes (k v : Nat) : (leBytes k v).length = k := by
  induction k generalizing v <;> simp [leBytes, *]

theorem leValue_leBytes (k v : Nat) : leValue (leBytes k v) = v % 256 ^ k := by
  induction k generalizing v with
  | zero => simp [leBytes, leValue, Nat.mod_one]
  | succ k ih =>
    rw [leBytes, leValue, ih, Nat.pow_succ', Nat.mod_mul]
    rfl

@[simp] theorem ByteOrder.length_put (o : ByteOrder) (k v : Nat) : (o.put k v).length = k := by
  cases o <;> simp [ByteOrder.put]

/-- **Byte-order round trip.** Reading back the `k` bytes of `v` gives `v` modulo `2^(8k)`. -/
theorem ByteOrder.get_put (o : ByteOrder) (k v : Nat) : o.get (o.put k v) = v % 256 ^ k := by
  cases o <;> simp [ByteOrder.put, ByteOrder.get, leValue_leBytes]

/-- The bits of a `k`-byte word, put and read back. -/
theorem ByteOrder.get_put_bitVec (o : ByteOrder) (k : Nat) (v : BitVec (8 * k)) :
    BitVec.ofNat (8 * k) (o.get (o.put k v.toNat)) = v := by
  rw [o.get_put, show (256 : Nat) ^ k = 2 ^ (8 * k) by rw [Nat.pow_mul],
    Nat.mod_eq_of_lt v.isLt]
  simp

/-! ## Fixed-layout records -/

/-- The fixed-layout types `binary.Write` and `binary.Read` accept. -/
inductive Layout where
  | bool
  | word (k : Nat)
  | skip (k : Nat)
  | array (n : Nat) (e : Layout)
  | unit
  | pair (a b : Layout)
  deriving DecidableEq, Repr

/-- The Go values of a layout. -/
@[reducible] def Layout.Val : Layout → Type
  | .bool => Bool
  | .word k => BitVec (8 * k)
  | .skip _ => Unit
  | .array n e => { l : List e.Val // l.length = n }
  | .unit => Unit
  | .pair a b => a.Val × b.Val

/-- Go's `binary.Size`: the bytes a value of the layout takes on the wire. -/
def Layout.size : Layout → Nat
  | .bool => 1
  | .word k => k
  | .skip k => k
  | .array n e => n * e.size
  | .unit => 0
  | .pair a b => a.size + b.size

/-- The zero value of a layout's Go type, what `reflect.New` allocates. -/
def Layout.zero : (l : Layout) → l.Val
  | .bool => false
  | .word _ => 0
  | .skip _ => ()
  | .array n e => ⟨List.replicate n e.zero, List.length_replicate n e.zero⟩
  | .unit => ()
  | .pair a b => (a.zero, b.zero)

/-- The wire format of `binary.Write`: booleans as `0`/`1`, words in the byte order, zeros for
blank fields, array elements and struct fields in order. -/
def Layout.encode (o : ByteOrder) : (l : Layout) → l.Val → List UInt8
  | .bool, v => [bif v then 1 else 0]
  | .word k, v => o.put k v.toNat
  | .skip k, _ => List.replicate k 0
  | .array _ e, v => v.1.flatMap (e.encode o)
  | .unit, _ => []
  | .pair a b, v => a.encode o v.1 ++ b.encode o v.2

/-- Decode `n` consecutive values of `size` bytes each. -/
def decodeN {α : Type} (dec : List UInt8 → α) (size : Nat) : Nat → List UInt8 → List α
  | 0, _ => []
  | n + 1, bs => dec bs :: decodeN dec size n (bs.drop size)

@[simp] theorem length_decodeN {α : Type} (dec : List UInt8 → α) (size n : Nat) (bs : List UInt8) :
    (decodeN dec size n bs).length = n := by
  induction n generalizing bs <;> simp [decodeN, *]

/-- The decoder of `binary.Read`, from the first `size` bytes: a boolean is any non-zero byte,
blank fields are skipped. -/
def Layout.decode (o : ByteOrder) : (l : Layout) → List UInt8 → l.Val
  | .bool, bs => bs.headD 0 != 0
  | .word k, bs => BitVec.ofNat (8 * k) (o.get (bs.take k))
  | .skip _, _ => ()
  | .array n e, bs => ⟨decodeN (e.decode o) e.size n bs, length_decodeN _ _ _ _⟩
  | .unit, _ => ()
  | .pair a b, bs => (a.decode o bs, b.decode o (bs.drop a.size))

theorem length_flatMap_of_length {α : Type} {f : α → List UInt8} {m : Nat}
    (hf : ∀ x, (f x).length = m) (l : List α) : (l.flatMap f).length = l.length * m := by
  induction l with
  | nil => simp
  | cons x l ih => simp [List.flatMap_cons, hf, ih, Nat.succ_mul, Nat.add_comm]

@[simp] theorem Layout.length_encode (o : ByteOrder) : (l : Layout) → (v : l.Val) →
    (l.encode o v).length = l.size
  | .bool, _ => rfl
  | .word k, _ => by simp [Layout.encode, Layout.size]
  | .skip k, _ => by simp [Layout.encode, Layout.size]
  | .array n e, v => by
    rw [Layout.encode, Layout.size, length_flatMap_of_length (e.length_encode o), v.2]
  | .unit, _ => rfl
  | .pair a b, v => by simp [Layout.encode, Layout.size, a.length_encode o, b.length_encode o]

/-- Decoding consecutive encodings gives back the values. -/
theorem decodeN_flatMap {α : Type} {dec : List UInt8 → α} {enc : α → List UInt8} {size : Nat}
    (hlen : ∀ x, (enc x).length = size) (hdec : ∀ x rest, dec (enc x ++ rest) = x)
    (l : List α) (rest : List UInt8) : decodeN dec size l.length (l.flatMap enc ++ rest) = l := by
  induction l with
  | nil => rfl
  | cons x l ih =>
    simp only [List.length_cons, decodeN, List.flatMap_cons, List.append_assoc, hdec,
      List.drop_left' (hlen x), ih]

/-- **Round trip of the wire format.** Decoding the encoding of a value, followed by anything,
gives back the value. -/
theorem Layout.decode_encode (o : ByteOrder) : (l : Layout) → (v : l.Val) → (rest : List UInt8) →
    l.decode o (l.encode o v ++ rest) = v
  | .bool, v, _ => by cases v <;> rfl
  | .word k, v, rest => by
    simp only [Layout.decode, Layout.encode]
    rw [List.take_left' (o.length_put k _), o.get_put_bitVec]
  | .skip _, _, _ => rfl
  | .array n e, ⟨l, hl⟩, rest => by
    subst hl
    exact Subtype.ext (decodeN_flatMap (e.length_encode o) (e.decode_encode o) l rest)
  | .unit, _, _ => rfl
  | .pair a b, v, rest => by
    simp only [Layout.decode, Layout.encode, List.append_assoc, a.decode_encode o,
      List.drop_left' (a.length_encode o v.1), b.decode_encode o]

end Codec
