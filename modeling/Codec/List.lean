import Codec.Setup
import Codec.Fixed

/-!
# The list codec `list[T]` (`list.go`, `part_007`)

A `list[T]` holds items of a codec type `T` and an alignment `A`. `Size()` adds to each item's size
the padding `Roundup(size, A) - size` after every item but the last; `WriteTo` writes each item
through a typed `Writer` and calls `Writer.Align(A)` after every item but the last, which pads the
writer's running count up to a multiple of `A`; `ReadFrom` reads either `cap(Items)` items or, when
the capacity is `0`, items until the reader ends, and skips `Roundup(read, A) - read` bytes after
each item it does not know to be the last. `MarshalBinary`, `UnmarshalBinary` and `MarshalTo` go
through the generic helpers of `part_007` over a `BytesWriter` or a `BytesReader`.

The items are any type with the methods a list calls (`ItemCodec`); the contract `ItemCodec.Sized`
says an item codec has one size and one wire format, as `*Fixed[P]` has (`Fixed.sized`). Over such
items and an alignment that is `0` or a power of two:

* `size_sized`, `writeTo_appends`: `Size()` is the length of `listWire`, and `WriteTo` writes
  exactly `listWire` into any sink with room (`WriterPro.Appends`). The padding `Align` computes
  from the running count equals the per-item padding `Size` computes, because every item starts at
  a multiple of `A` (`alignedAt_step`).
* `readLoop_count`, `readLoop_eof`: `ReadFrom` in either mode recovers the items from a reader that
  fills its reads and returns the same count.
* **`list_round_trip`**: the whole round trip for `*Fixed[P]` records: `Size`, `WriteTo` over a
  sink, `MarshalBinary`, `MarshalTo`, `ReadFrom` in both modes, and `UnmarshalBinary`.
-/

namespace Codec

variable {σ τ ω : Type}

/-! ## The items and the list -/

/-- The methods of Go's `Codec` a `list[T]` calls on its items, over the item type `ω`: `Size()`,
`WriteTo`, `ReadFrom`, and the new item `reflect.New` makes for each read. -/
structure ItemCodec (ω : Type) : Type 1 where
  size : ω → Int
  writerTo : IoWriterTo ω
  readerFrom : IoReaderFrom ω
  fresh : ω

/-- Go's `list[T]`: the items, the capacity of their slice (which `ReadFrom` reads), and
`options.Alignment`. -/
structure GoList (ω : Type) where
  items : List ω
  cap : Nat
  alignment : Int

namespace GoList

/-- Go's `NewList(items, options)`; a nil `options` means no alignment. -/
def new (items : List ω) (cap : Nat) (alignment : Option Int) : GoList ω :=
  ⟨items, cap, alignment.getD 0⟩

/-- Go's `NewList0(items)`. -/
def new0 (items : List ω) (cap : Nat) : GoList ω := ⟨items, cap, 0⟩

/-- Go's `NewList4(items)`. -/
def new4 (items : List ω) (cap : Nat) : GoList ω := ⟨items, cap, 4⟩

/-- Go's `NewList8(items)`. -/
def new8 (items : List ω) (cap : Nat) : GoList ω := ⟨items, cap, 8⟩

variable (c : ItemCodec ω)

/-- The loop of Go's `Size()` from index `i`, `last` being the last index. -/
def sizeLoop (A : Int) (last : Nat) : Nat → List ω → Int
  | _, [] => 0
  | i, x :: xs =>
    c.size x + (if i < last ∧ A > 1 then roundup (c.size x) A - c.size x else 0) +
      sizeLoop A last (i + 1) xs

/-- Go's `Size()`. -/
def size (l : GoList ω) : Int :=
  if l.items.length = 0 then 0 else sizeLoop c l.alignment (l.items.length - 1) 0 l.items

/-- The loop of Go's `WriteTo`: each item writes itself through the typed writer, and every item
but the last is followed by `Align(A)`. -/
def writeLoop (p : WriterPro τ) (A : Int) (last : Nat) : Nat → List ω → Writer → τ → Writer × τ
  | _, [], w, t => (w, t)
  | i, x :: xs, w, t =>
    let o := w.writeFrom p (some c.writerTo) x t
    let a := if i < last ∧ A > 1 then o.2.1.align p A o.2.2 else (o.2.1, o.2.2)
    writeLoop p A last (i + 1) xs a.1 a.2

/-- Go's `WriteTo(writer)`, given the typed `Writer` that `NewWriter(writer)` built: its
`WriterPro`, its header and the sink's state. -/
def writeTo (l : GoList ω) (p : WriterPro τ) (w : Writer) (t : τ) : (Int × Option GoErr) × τ :=
  if l.items.length = 0 then ((0, none), t)
  else
    let o := writeLoop c p l.alignment (l.items.length - 1) 0 l.items w t
    let r := o.1.result p o.2
    (r.1, r.2.2)

/-- The list as an `io.WriterTo` over a plain writer, which `NewWriter` puts behind a new
`bufio.Writer` of the default size; the `bufio.Writer` is dropped after `Result`. -/
def writerTo : IoWriterTo (GoList ω) :=
  ⟨fun w l t => let o := writeTo c l (BufWriter.pro w) (Writer.fresh 0) (BufWriter.new 0, t)
    (o.1, l, o.2.2)⟩

/-- The loop of Go's `ReadFrom(reader)` from index `i`, with `n` bytes read and `items` so far:
`count` items, or items until the reader ends when `count` is `0`. After each item that is not
the last of a counted read, the padding `Roundup(read, A) - read` is skipped. The until-end mode
is given `fuel` rounds, and each item's own `ReadFrom` is given `fuelItem`. -/
def readLoop (r : IoReader σ) (A : Int) (count fuelItem : Nat) :
    Nat → Nat → Int → List ω → σ → (Int × Option GoErr) × List ω × σ
  | 0, _, n, items, s => ((n, none), items, s)
  | fuel + 1, i, n, items, s =>
    let readEOF := count == 0
    if readEOF || decide (i < count) then
      let o := c.readerFrom.readFrom r fuelItem c.fresh s
      let n := n + o.1.1
      match o.1.2 with
      | some e =>
        if readEOF && (e == .eof || o.1.1 == 0) then ((n, none), items, o.2.2)
        else ((n, some e), items, o.2.2)
      | none =>
        let items := items ++ [o.2.1]
        let isLastItem := !readEOF && i == count - 1
        if !isLastItem && decide (A > 1) then
          let padding := roundup o.1.1 A - o.1.1
          if padding > 0 then
            let d := discard r padding o.2.2
            let n := n + d.1.1
            match d.1.2 with
            | some e =>
              if readEOF && (e == .eof || o.1.1 == 0) then ((n, none), items, d.2)
              else ((n, some e), items, d.2)
            | none => readLoop r A count fuelItem fuel (i + 1) n items d.2
          else readLoop r A count fuelItem fuel (i + 1) n items o.2.2
        else readLoop r A count fuelItem fuel (i + 1) n items o.2.2
    else ((n, none), items, s)

/-- Go's `ReadFrom(reader)`, with `fuel` rounds for its loop: the count, the error, and the list
with the items read appended (`append` grows the capacity to at least the length; the model takes
exactly that). -/
def readFrom (l : GoList ω) (r : IoReader σ) (fuel : Nat) (s : σ) :
    (Int × Option GoErr) × GoList ω × σ :=
  let o := readLoop c r l.alignment l.cap fuel fuel 0 0 l.items s
  (o.1, { l with items := o.2.1, cap := max l.cap o.2.1.length }, o.2.2)

/-- The list as an `io.ReaderFrom`. -/
def readerFrom : IoReaderFrom (GoList ω) := ⟨fun r fuel l s => readFrom c l r fuel s⟩

end GoList

/-! ## The generic helpers of `part_007` -/

/-- Go's `MarshalBinaryGeneric(v)`: `WriteTo` into a `BytesWriter` over `make([]byte, Size())`. -/
def marshalBinaryGeneric (size : Int) (writeTo : BytesWriter → (Int × Option GoErr) × BytesWriter) :
    Except GoErr (List UInt8) :=
  let o := writeTo (BytesWriter.new (List.replicate size.toNat 0))
  match o.1.2 with
  | some e => .error e
  | none => if o.1.1 < size then .error (.detail .truncatedData [size, o.1.1]) else .ok o.2.bytes

/-- Go's `UnmarshalBinaryGeneric(v, data)`: `ReadFrom` a `BytesReader` over `data`, compare the
count with the value's `Size()` afterwards, and hand what is left to `CheckBufferNotZeros`, a
helper the sources call but do not contain, taken here as a parameter. Returns the value after the
read and the error. -/
def unmarshalBinaryGeneric {φ : Type} (checkBufferNotZeros : List UInt8 → Option GoErr)
    (size : φ → Int) (readFrom : BytesReader.Valid → (Int × Option GoErr) × φ)
    (data : List UInt8) : φ × Option GoErr :=
  let o := readFrom (BytesReader.Valid.new data)
  match o.1.2 with
  | some e => (o.2, some e)
  | none =>
    if o.1.1 < size o.2 then (o.2, some (.detail .truncatedData [size o.2, o.1.1]))
    else if o.1.1 < data.length then (o.2, checkBufferNotZeros (data.drop o.1.1.toNat))
    else (o.2, none)

/-- Go's `MarshalToGeneric(v, p)`: `WriteTo` into a `BytesWriter` over `p`. Returns the count,
the error and `p` afterwards. -/
def marshalToGeneric (size : Int) (writeTo : BytesWriter → (Int × Option GoErr) × BytesWriter)
    (p : List UInt8) : (Int × Option GoErr) × List UInt8 :=
  if p.length < size then ((0, some .shortWrite), p)
  else
    let o := writeTo (BytesWriter.new p)
    match o.1.2 with
    | some e => ((o.1.1, some e), o.2.b)
    | none => if o.1.1 < size then ((o.1.1, some .shortWrite), o.2.b) else ((o.1.1, none), o.2.b)

namespace GoList

variable (c : ItemCodec ω)

/-- The list's `WriteTo` handed a `*BytesWriter`, which `NewWriter` uses as it is. -/
def writeToBytes (l : GoList ω) (bw : BytesWriter) : (Int × Option GoErr) × BytesWriter :=
  writeTo c l BytesWriter.pro (Writer.fresh 0) bw

/-- Go's `MarshalBinary()`. -/
def marshalBinary (l : GoList ω) : Except GoErr (List UInt8) :=
  marshalBinaryGeneric (size c l) (writeToBytes c l)

/-- Go's `MarshalTo(buf)`. -/
def marshalTo (l : GoList ω) (buf : List UInt8) : (Int × Option GoErr) × List UInt8 :=
  marshalToGeneric (size c l) (writeToBytes c l) buf

/-- Go's `UnmarshalBinary(data)`, its `ReadFrom` given a round per byte and one more. -/
def unmarshalBinary (checkBufferNotZeros : List UInt8 → Option GoErr) (l : GoList ω)
    (data : List UInt8) : GoList ω × Option GoErr :=
  unmarshalBinaryGeneric checkBufferNotZeros (size c)
    (fun br => let o := readFrom c l BytesReader.Valid.reader (data.length + 1) br; (o.1, o.2.1)) data

end GoList

/-! ## The wire format and the alignment -/

/-- The wire format of a list: the items' encodings in order, each but the last followed by `pad`
zero bytes. -/
def listWire (enc : ω → List UInt8) (pad : Nat) : List ω → List UInt8
  | [] => []
  | [x] => enc x
  | x :: xs => enc x ++ List.replicate pad 0 ++ listWire enc pad xs

section Wire

variable {enc : ω → List UInt8} {pad : Nat}

@[simp] theorem listWire_nil : listWire enc pad [] = [] := rfl

@[simp] theorem listWire_single (x : ω) : listWire enc pad [x] = enc x := rfl

theorem listWire_cons_cons (x y : ω) (ys : List ω) :
    listWire enc pad (x :: y :: ys) = enc x ++ List.replicate pad 0 ++ listWire enc pad (y :: ys) :=
  rfl

theorem length_enc_le_listWire (x : ω) (xs : List ω) :
    (enc x).length ≤ (listWire enc pad (x :: xs)).length := by
  cases xs <;> simp [listWire_cons_cons]

theorem length_listWire_cons_cons (pad : Nat) {s : Nat} (hl : ∀ x, (enc x).length = s) (x y : ω) (ys : List ω) :
    (listWire enc pad (x :: y :: ys)).length = s + pad + (listWire enc pad (y :: ys)).length := by
  simp only [listWire_cons_cons, List.length_append, List.length_replicate, hl]

theorem listWire_ne_nil {s : Nat} (hs : 0 < s) (hl : ∀ x, (enc x).length = s) (x : ω)
    (xs : List ω) : listWire enc pad (x :: xs) ≠ [] :=
  List.length_pos.mp (lt_of_lt_of_le (hl x ▸ hs) (length_enc_le_listWire x xs))

theorem length_le_listWire {s : Nat} (hs : 0 < s) (hl : ∀ x, (enc x).length = s) :
    ∀ xs : List ω, xs.length ≤ (listWire enc pad xs).length
  | [] => le_refl 0
  | [x] => by simp [hl]; omega
  | x :: y :: ys => by
    have := length_le_listWire hs hl (y :: ys)
    simp only [listWire_cons_cons, List.length_append, List.length_cons, hl] at this ⊢
    omega

end Wire

/-- The alignments the list is meant for: none (`0`), or a power of two (`1`, `4`, `8`, ...). -/
def Aligns (A : Int) : Prop := A = 0 ∨ ∃ k : Nat, A = 2 ^ k

/-- The padding after each item but the last: `Roundup(size, A) - size` zero bytes, none when
that is negative. -/
def listPad (A : Int) (size : Nat) : Nat := (roundup size A - size).toNat

/-- The padding `Size` and `ReadFrom` compute is `listPad`: none without an alignment above `1`. -/
theorem pad_eq_listPad {A : Int} (hA : Aligns A) {s : Nat} (hs : 0 < s) :
    (if A > 1 then roundup s A - s else 0) = (listPad A s : Int) := by
  rcases hA with rfl | ⟨k, rfl⟩
  · simp [listPad, roundup_zero hs]
  · rcases k with _ | k
    · simp [listPad, roundup_one]
    · have h1 : (2 : Int) ^ (k + 1) > 1 := by
        have := Nat.one_lt_two_pow (n := k + 1) (by omega)
        exact_mod_cast this
      have := le_roundup s (k + 1)
      rw [if_pos h1, listPad, Int.toNat_of_nonneg (by omega)]

/-- The count at the start of an item: a multiple of the alignment, when it is above `1`. -/
def AlignedAt (A c : Int) : Prop := 1 < A → ∃ m : Nat, c = A * m

/-- **Alignment after an item.** From a multiple of a power of two `A`, `Align(A)` after an item
of size `s` pads exactly `listPad A s`, and the next item starts at a multiple of `A` again. -/
theorem alignedAt_step {A : Int} (hA : Aligns A) {s : Nat} {c : Int} (hc : AlignedAt A c)
    (h1 : 1 < A) : roundup (c + s) A = c + s + listPad A s ∧ AlignedAt A (c + s + listPad A s) := by
  rcases hA with rfl | ⟨k, rfl⟩
  · omega
  obtain ⟨m, rfl⟩ := hc h1
  obtain ⟨q, hq⟩ : ∃ q : Nat, roundup s (2 ^ k) = ((2 ^ k * q : Nat) : Int) := ⟨_, roundup_two_pow s k⟩
  have hle := le_roundup s k
  have hpad : (listPad (2 ^ k) s : Int) = roundup s (2 ^ k) - s := Int.toNat_of_nonneg (by omega)
  have hr := roundup_mul_add m s k
  push_cast at hr hq
  refine ⟨by rw [hr, hpad]; omega, fun _ => ⟨m + q, ?_⟩⟩
  push_cast
  rw [hpad, hq, Int.mul_add]
  omega

/-! ## Items of one size -/

/-- An item codec of one size `s > 0` and wire format `enc`: `Size()` is `s`; `WriteTo` writes
`enc x` with one write and reports `s` when that write succeeds; `ReadFrom` into a new item
decodes the item a stream begins with, and at the end of a stream fails having read nothing. -/
structure ItemCodec.Sized (c : ItemCodec ω) (s : Nat) (enc : ω → List UInt8) : Prop where
  pos : 0 < s
  size : ∀ x, c.size x = s
  length : ∀ x, (enc x).length = s
  writeTo : ∀ {τ : Type} (w : IoWriter τ) (x : ω) (t : τ), (w.write (enc x) t).1.err = none →
    c.writerTo.writeTo w x t = (((s : Int), none), x, (w.write (enc x) t).2)
  readFrom : ∀ {σ : Type} {r : IoReader σ} {view : σ → List UInt8}, r.Delivers view → r.Clean →
    ∀ (fuel : Nat) (x : ω) (st : σ) (rest : List UInt8), view st = enc x ++ rest →
      (c.readerFrom.readFrom r fuel c.fresh st).1 = ((s : Int), none) ∧
        (c.readerFrom.readFrom r fuel c.fresh st).2.1 = x ∧
        view (c.readerFrom.readFrom r fuel c.fresh st).2.2 = rest
  readEnd : ∀ {σ : Type} {r : IoReader σ} {view : σ → List UInt8}, r.Delivers view → r.Clean →
    ∀ (fuel : Nat) (st : σ), view st = [] →
      (c.readerFrom.readFrom r fuel c.fresh st).1.1 = 0 ∧
        (c.readerFrom.readFrom r fuel c.fresh st).1.2 ≠ none

namespace GoList

section Sized

variable {c : ItemCodec ω} {s : Nat} {enc : ω → List UInt8} {A : Int}

theorem sizeLoop_sized (h : c.Sized s enc) (hA : Aligns A) :
    ∀ (xs : List ω) (i last : Nat), i + xs.length = last + 1 →
      sizeLoop c A last i xs = (listWire enc (listPad A s) xs).length
  | [], _, _, _ => rfl
  | [x], i, last, hi => by
    simp [sizeLoop, h.size, h.length, show ¬ i < last by simp at hi; omega]
  | x :: y :: ys, i, last, hi => by
    have hpad := pad_eq_listPad hA h.pos
    rw [sizeLoop, sizeLoop_sized h hA (y :: ys) (i + 1) last (by simp at hi ⊢; omega), h.size,
      if_congr (show i < last ∧ A > 1 ↔ A > 1 by simp at hi; omega) rfl rfl, hpad,
      listWire_cons_cons]
    simp [h.length]; omega

/-- **Size of a list of items of one size** is the length of its wire format. -/
theorem size_sized (h : c.Sized s enc) (hA : Aligns A) (xs : List ω) (cap : Nat) :
    size c ⟨xs, cap, A⟩ = (listWire enc (listPad A s) xs).length := by
  cases xs with
  | nil => rfl
  | cons x xs =>
    simp only [size, List.length_cons, Nat.add_one_ne_zero, if_false]
    exact sizeLoop_sized h hA (x :: xs) 0 _ (by simp)

end Sized

section Write

variable {c : ItemCodec ω} {s : Nat} {enc : ω → List UInt8} {A : Int} {p : WriterPro τ}
  {v : SinkView τ}

theorem writeLoop_cons (last i : Nat) (x : ω) (xs : List ω) (w : Writer) (t : τ) :
    writeLoop c p A last i (x :: xs) w t =
      let o := w.writeFrom p (some c.writerTo) x t
      let a := if i < last ∧ A > 1 then o.2.1.align p A o.2.2 else (o.2.1, o.2.2)
      writeLoop c p A last (i + 1) xs a.1 a.2 := rfl

/-- One item through the typed writer: `WriteFrom` writes its encoding and counts its size. -/
theorem writeFrom_sized (h : c.Sized s enc) (hp : p.Appends v) {w : Writer} {t : τ} (x : ω)
    (hw : w.err = none) (hr : v.Room t s) :
    (w.writeFrom p (some c.writerTo) x t).2.1 = { w with count := w.count + s } ∧
      v.Takes t (enc x) (w.writeFrom p (some c.writerTo) x t).2.2 := by
  obtain ⟨h1, h2⟩ := hp.write (b := enc x) (by rwa [h.length]) (by rw [h.length]; exact h.pos)
  rw [Writer.writeFrom_of_writeTo hw
    (h.writeTo p.toIoWriter x t (show (p.write (enc x) t).1.err = none by rw [h1]))]
  exact ⟨rfl, h2⟩

/-- The padding after an item that is not the last: `Align(A)` from an aligned start writes
`listPad A s` zeros, and the next item starts aligned. -/
theorem alignAfter_sized (h : c.Sized s enc) (hp : p.Appends v) (hA : Aligns A) {w : Writer}
    {t : τ} {i last : Nat} (hil : i < last) (hw : w.err = none) (hc : AlignedAt A w.count)
    (hr : v.Room t (listPad A s)) :
    ∃ t2, (if i < last ∧ A > 1 then Writer.align p A { w with count := w.count + s } t
        else ({ w with count := w.count + s }, t)) = ({ w with count := w.count + s + listPad A s }, t2) ∧
      AlignedAt A (w.count + s + listPad A s) ∧ v.Takes t (List.replicate (listPad A s) 0) t2 := by
  by_cases hA1 : A > 1
  · obtain ⟨e1, e2⟩ := alignedAt_step hA (s := s) hc hA1
    have hpad : (roundup (w.count + s) A - (w.count + s)).toNat = listPad A s := by omega
    obtain ⟨a1, a2⟩ := Writer.align_appends hp (w := { w with count := w.count + s }) (t := t) hw hA1
      (by simp only; omega) (by simp only; rwa [hpad])
    simp only [hpad] at a2
    simp only [e1] at a1
    rw [if_pos ⟨hil, hA1⟩]
    exact ⟨_, Prod.ext a1 rfl, e2, a2⟩
  · have hpad0 : listPad A s = 0 := by
      have := pad_eq_listPad hA h.pos
      rw [if_neg hA1] at this; omega
    rw [if_neg fun h' => hA1 h'.2, hpad0]
    exact ⟨t, by simp, fun h' => absurd h' hA1, .refl hr.1⟩

/-- **The write loop writes the wire format.** From an aligned count, over a sink with room, the
items and the padding between them are taken in order and counted. -/
theorem writeLoop_appends (h : c.Sized s enc) (hp : p.Appends v) (hA : Aligns A) :
    ∀ (xs : List ω) (i last : Nat) (w : Writer) (t : τ), i + xs.length = last + 1 →
      w.err = none → AlignedAt A w.count → v.Room t (listWire enc (listPad A s) xs).length →
      (writeLoop c p A last i xs w t).1 =
          { w with count := w.count + (listWire enc (listPad A s) xs).length } ∧
        v.Takes t (listWire enc (listPad A s) xs) (writeLoop c p A last i xs w t).2
  | [], _, _, w, t, _, _, _, hr => ⟨by simp [writeLoop], .refl hr.1⟩
  | [x], i, last, w, t, hi, hw, _, hr => by
    have hil : ¬ i < last := by simp at hi; omega
    obtain ⟨h1, h2⟩ := writeFrom_sized h hp x hw (by simpa [h.length] using hr)
    have e : writeLoop c p A last i [x] w t = ((w.writeFrom p (some c.writerTo) x t).2.1,
        (w.writeFrom p (some c.writerTo) x t).2.2) := by
      simp [writeLoop, hil]
    rw [e, h1]
    exact ⟨by simp [h.length], h2⟩
  | x :: y :: ys, i, last, w, t, hi, hw, hc, hr => by
    have hil : i < last := by simp at hi; omega
    have hlen := length_listWire_cons_cons (listPad A s) h.length x y ys
    obtain ⟨h1, h2⟩ := writeFrom_sized h hp x hw (hr.mono (by omega))
    obtain ⟨t2, e, a2, a3⟩ := alignAfter_sized h hp hA (t := (w.writeFrom p (some c.writerTo) x t).2.2)
      hil hw hc (h2.room (hr.mono (by simp [h.length]; omega)))
    rw [← h1] at e
    obtain ⟨ih1, ih2⟩ := writeLoop_appends h hp hA (y :: ys) (i + 1) last
      { w with count := w.count + s + listPad A s } t2 (by simp at hi ⊢; omega) hw a2
      ((h2.trans a3).room (hr.mono (by simp [h.length]; omega)))
    rw [writeLoop_cons]
    simp only []
    rw [e]
    refine ⟨by rw [ih1, hlen]; simp only [Int.ofNat_add]; congr 1; omega, ?_⟩
    exact ((h2.trans a3).trans ih2).congr (by simp [listWire_cons_cons])

/-- **WriteTo writes the wire format.** Through a fresh typed writer over a sink with room, the
items and the padding between them are taken in order, `Result` reports their length and no error,
and an outermost writer sends them through. -/
theorem writeTo_appends (h : c.Sized s enc) (hp : p.Appends v) (hA : Aligns A) (xs : List ω)
    (cap : Nat) {w : Writer} (hw : w.err = none) (hc : w.count = 0) {t : τ}
    (hr : v.Room t (listWire enc (listPad A s) xs).length) :
    (writeTo c ⟨xs, cap, A⟩ p w t).1 = (((listWire enc (listPad A s) xs).length : Int), none) ∧
      v.Takes t (listWire enc (listPad A s) xs) (writeTo c ⟨xs, cap, A⟩ p w t).2 ∧
      (w.depth = 0 → v.flushed t → v.flushed (writeTo c ⟨xs, cap, A⟩ p w t).2) := by
  cases xs with
  | nil => exact ⟨rfl, .refl hr.1, fun _ ht => ht⟩
  | cons x xs =>
    obtain ⟨h1, h2⟩ := writeLoop_appends h hp hA (x :: xs) 0 xs.length w t (by simp) hw
      (fun _ => ⟨0, by simp [hc]⟩) hr
    have hw' : (writeLoop c p A xs.length 0 (x :: xs) w t).1.err = none := by rw [h1]; exact hw
    obtain ⟨r1, -, r3⟩ := Writer.result_appends hp hw' h2.ok
    simp only [writeTo, List.length_cons, Nat.add_one_ne_zero, if_false, Nat.add_sub_cancel]
    refine ⟨by rw [r1, h1]; simp [hc], (h2.trans r3).congr (List.append_nil _), fun hd _ => ?_⟩
    exact Writer.result_flushed hp hw' (by rw [h1]; exact hd) h2.ok

end Write

section Read

variable {c : ItemCodec ω} {s : Nat} {enc : ω → List UInt8} {A : Int} {r : IoReader σ}
  {view : σ → List UInt8}

/-- The padding `ReadFrom` computes after an item of size `s`, as a count of bytes. -/
theorem readPad_eq (h : c.Sized s enc) (hA : Aligns A) (hA1 : A > 1) :
    roundup s A - s = (listPad A s : Int) := by
  rw [← pad_eq_listPad hA h.pos, if_pos hA1]

theorem listPad_eq_zero (h : c.Sized s enc) (hA : Aligns A) (hA1 : ¬ A > 1) : listPad A s = 0 := by
  have := pad_eq_listPad hA h.pos
  rw [if_neg hA1] at this; omega

/-- One round of the read loop on an item that is not the last: it reads the item and skips its
padding, whichever way the padding is computed, and goes on over what follows. -/
theorem readLoop_item (h : c.Sized s enc) (hA : Aligns A) (hr : r.Delivers view) (hc : r.Clean)
    (hf : r.Fills view) {count : Nat} (fi fuel i : Nat) (n : Int) (acc : List ω) (y : ω) (st : σ)
    (more : List UInt8) (hgo : count = 0 ∨ i < count) (hnl : count = 0 ∨ i ≠ count - 1)
    (hv : view st = enc y ++ (List.replicate (listPad A s) 0 ++ more)) (hm : more ≠ []) :
    ∃ st', view st' = more ∧ readLoop c r A count fi (fuel + 1) i n acc st =
      readLoop c r A count fi fuel (i + 1) (n + s + listPad A s) (acc ++ [y]) st' := by
  obtain ⟨r1, r2, r3⟩ := h.readFrom hr hc fi y st _ hv
  have e1 : (count == 0 || decide (i < count)) = true := by
    rcases hgo with hgo | hgo <;> simp [hgo]
  have e2 : (!(count == 0) && i == count - 1) = false := by
    rcases hnl with hnl | hnl <;> simp [hnl]
  simp only [readLoop, e1, if_true, r1, r2, e2, Bool.not_false, Bool.true_and]
  by_cases hA1 : A > 1
  · simp only [hA1, decide_True, if_true, readPad_eq h hA hA1]
    by_cases hp0 : 0 < listPad A s
    · obtain ⟨d1, d2⟩ := discard_fills hr hc hf (n := listPad A s)
        (s := (c.readerFrom.readFrom r fi c.fresh st).2.2)
        (by rw [r3]; simp [List.length_pos.mpr hm])
      simp only [show (listPad A s : Int) > 0 by omega, if_true, d1]
      exact ⟨_, by rw [d2, r3, List.drop_left' (List.length_replicate _ _)], rfl⟩
    · have h0 : listPad A s = 0 := by omega
      simp only [h0, Int.ofNat_zero, gt_iff_lt, lt_self_iff_false, if_false]
      exact ⟨_, by simpa [h0] using r3, by simp⟩
  · have h0 := listPad_eq_zero h hA hA1
    simp only [hA1, decide_False, Bool.and_false, if_false]
    exact ⟨_, by simpa [h0] using r3, by simp [h0]⟩

/-- **The counted read loop recovers the items.** Reading `count` items from a reader that fills
its reads and holds their wire format, followed by anything, returns them with the wire format's
length and leaves what follows. -/
theorem readLoop_count (h : c.Sized s enc) (hA : Aligns A) (hr : r.Delivers view) (hc : r.Clean)
    (hf : r.Fills view) {count : Nat} (hcount : 0 < count) (fi : Nat) :
    ∀ (ys : List ω) (fuel i : Nat) (n : Int) (acc : List ω) (st : σ) (rest : List UInt8),
      i + ys.length = count → ys.length < fuel → view st = listWire enc (listPad A s) ys ++ rest →
      (readLoop c r A count fi fuel i n acc st).1 =
          (n + (listWire enc (listPad A s) ys).length, none) ∧
        (readLoop c r A count fi fuel i n acc st).2.1 = acc ++ ys ∧
        view (readLoop c r A count fi fuel i n acc st).2.2 = rest
  | [], fuel + 1, i, n, acc, st, rest, hi, _, hv => by
    have hic : ¬ i < count := by simp at hi; omega
    simp [readLoop, hic, Nat.pos_iff_ne_zero.mp hcount, hv]
  | [y], fuel + 1, i, n, acc, st, rest, hi, hfu, hv => by
    -- the last item: no padding follows
    have hic : i < count := by simp at hi; omega
    have hz : (count == 0) = false := by simp; omega
    have hlast : (i == count - 1) = true := by simp at hi ⊢; omega
    obtain ⟨r1, r2, r3⟩ := h.readFrom hr hc fi y st rest (by simpa using hv)
    obtain ⟨i1, i2, i3⟩ := readLoop_count h hA hr hc hf hcount fi [] fuel (i + 1) (n + s)
      (acc ++ [y]) _ rest (by simp at hi ⊢; omega) (by simp at hfu ⊢; omega) (by simpa using r3)
    simp only [readLoop, hz, hic, decide_True, Bool.false_or, if_true, r1, r2, hlast,
      Bool.not_false, Bool.true_and, Bool.not_true, Bool.false_and, Bool.false_eq_true, if_false]
    exact ⟨by rw [i1]; simp [h.length], by rw [i2]; simp, i3⟩
  | y :: z :: zs, fuel + 1, i, n, acc, st, rest, hi, hfu, hv => by
    have hlen := length_listWire_cons_cons (listPad A s) h.length y z zs
    simp only [List.length_cons] at hi hfu
    obtain ⟨st1, hv1, e⟩ := readLoop_item h hA hr hc hf fi fuel i n acc y st
      (listWire enc (listPad A s) (z :: zs) ++ rest) (.inr (show i < count by omega)) (.inr (by omega))
      (by simp [hv, listWire_cons_cons]) (by simp [listWire_ne_nil h.pos h.length z zs])
    obtain ⟨i1, i2, i3⟩ := readLoop_count h hA hr hc hf hcount fi (z :: zs) fuel (i + 1) _ _ st1
      rest (by simp only [List.length_cons]; omega) (by simp only [List.length_cons]; omega) hv1
    rw [e]
    exact ⟨by rw [i1, hlen]; simp only [Nat.cast_add, Prod.mk.injEq, and_true]; omega,
      by rw [i2]; simp, i3⟩
  | _, 0, _, _, _, _, _, _, hfu, _ => absurd hfu (Nat.not_lt_zero _)

/-- **The read-until-end loop recovers the items.** Reading items until a reader that fills its
reads and holds exactly their wire format ends returns them with the wire format's length. -/
theorem readLoop_eof (h : c.Sized s enc) (hA : Aligns A) (hr : r.Delivers view) (hc : r.Clean)
    (hf : r.Fills view) (fi : Nat) :
    ∀ (ys : List ω) (fuel i : Nat) (n : Int) (acc : List ω) (st : σ),
      ys.length < fuel → view st = listWire enc (listPad A s) ys →
      (readLoop c r A 0 fi fuel i n acc st).1 = (n + (listWire enc (listPad A s) ys).length, none) ∧
        (readLoop c r A 0 fi fuel i n acc st).2.1 = acc ++ ys
  | [], fuel + 1, i, n, acc, st, _, hv => by
    -- the item read fails having read nothing: the clean end
    obtain ⟨e1, e2⟩ := h.readEnd hr hc fi st hv
    obtain ⟨e, he⟩ := Option.ne_none_iff_exists'.mp e2
    simp [readLoop, he, e1]
  | [y], fuel + 1, i, n, acc, st, hfu, hv => by
    obtain ⟨r1, r2, r3⟩ := h.readFrom hr hc fi y st [] (by simpa using hv)
    have next := readLoop_eof h hA hr hc hf fi [] fuel (i + 1) (n + s) (acc ++ [y])
      (c.readerFrom.readFrom r fi c.fresh st).2.2 (by simp at hfu ⊢; omega) r3
    simp only [listWire_nil, List.length_nil, Nat.cast_zero, Int.add_zero, List.append_nil] at next
    simp only [readLoop, beq_self_eq_true, Bool.true_or, if_true, r1, r2, Bool.not_true,
      Bool.false_and, Bool.not_false, Bool.true_and, listWire_single, h.length]
    by_cases hA1 : A > 1
    · simp only [hA1, decide_True, if_true, readPad_eq h hA hA1]
      by_cases hp0 : 0 < listPad A s
      · -- the padding after the last item meets the end
        have d1 := discard_at_end hr hc hp0 r3
        simp [show (listPad A s : Int) > 0 by omega, d1]
      · simpa [show listPad A s = 0 by omega] using next
    · simpa [hA1] using next
  | y :: z :: zs, fuel + 1, i, n, acc, st, hfu, hv => by
    have hlen := length_listWire_cons_cons (listPad A s) h.length y z zs
    obtain ⟨st1, hv1, e⟩ := readLoop_item h hA hr hc hf fi fuel i n acc y st
      (listWire enc (listPad A s) (z :: zs)) (.inl rfl) (.inl rfl)
      (by simp [hv, listWire_cons_cons]) (listWire_ne_nil h.pos h.length z zs)
    obtain ⟨i1, i2⟩ := readLoop_eof h hA hr hc hf fi (z :: zs) fuel (i + 1) _ _ st1
      (by simp only [List.length_cons] at hfu ⊢; omega) hv1
    rw [e]
    exact ⟨by rw [i1, hlen]; simp only [Nat.cast_add, Prod.mk.injEq, and_true]; omega,
      by rw [i2]; simp⟩
  | _, 0, _, _, _, _, hfu, _ => absurd hfu (Nat.not_lt_zero _)

end Read

end GoList

/-! ## Lists of fixed records -/

/-- A `*Fixed[P]` as a list item; its `ReadFrom` makes one `binary.Read` and needs no rounds. -/
def Fixed.itemCodec (l : Layout) : ItemCodec (Fixed l) where
  size c := c.size
  writerTo := ⟨fun w c t => let o := c.writeTo w t; (o.1, c, o.2)⟩
  readerFrom := ⟨fun r _ c s => c.readFrom r s⟩
  fresh := ⟨l.zero⟩

@[simp] theorem Fixed.itemCodec_readFrom {l : Layout} (r : IoReader σ) (fuel : Nat) (c : Fixed l)
    (s : σ) : (Fixed.itemCodec l).readerFrom.readFrom r fuel c s = c.readFrom r s := rfl

@[simp] theorem Fixed.itemCodec_fresh {l : Layout} : (Fixed.itemCodec l).fresh = ⟨l.zero⟩ := rfl

theorem Fixed.readFrom_count_of_err {l : Layout} {r : IoReader σ} (c : Fixed l) (s : σ)
    (h : (c.readFrom r s).1.2 ≠ none) : (c.readFrom r s).1.1 = 0 := by
  simp only [Fixed.readFrom] at h ⊢
  cases hres : (binaryRead r defaultOrder l c.payload s).1.2 <;> simp_all

/-- **A record of positive size is a list item of one size**, whose wire format is the record's. -/
theorem Fixed.sized {l : Layout} (hs : 0 < l.size) :
    (Fixed.itemCodec l).Sized l.size (fun x => l.encode defaultOrder x.payload) where
  pos := hs
  size _ := rfl
  length x := l.length_encode defaultOrder x.payload
  writeTo w x t he := by simp [itemCodec, Fixed.writeTo, binaryWrite, he, Fixed.size]
  readFrom hr hc _ x st rest hv := by
    obtain ⟨h1, h2, h3⟩ := Fixed.readFrom_spec hr hc ⟨l.zero⟩ x.payload rest st hv
    exact ⟨h1, by cases x; exact congrArg Fixed.mk h2, h3⟩
  readEnd hr hc _ st he := by
    have := (Fixed.readFrom_short hr hc ⟨l.zero⟩ st (by rw [he]; exact hs)).1
    exact ⟨Fixed.readFrom_count_of_err _ _ this, this⟩

/-- The wire format of a list of `Fixed[P]` records with alignment `A`: their encodings in order,
each but the last followed by `Roundup(size, A) - size` zero bytes (none when that is
negative). -/
def fixedListWire (l : Layout) (A : Int) (xs : List (Fixed l)) : List UInt8 :=
  listWire (fun x => l.encode defaultOrder x.payload) (listPad A l.size) xs

section FixedList

variable {l : Layout} {A : Int}

theorem fixedList_size (hs : 0 < l.size) (hA : Aligns A) (xs : List (Fixed l)) (cap : Nat) :
    GoList.size (Fixed.itemCodec l) ⟨xs, cap, A⟩ = (fixedListWire l A xs).length :=
  GoList.size_sized (Fixed.sized hs) hA xs cap

theorem fixedList_writeToBytes (hs : 0 < l.size) (hA : Aligns A) (xs : List (Fixed l)) (cap : Nat)
    {buf : List UInt8} (hbuf : (fixedListWire l A xs).length ≤ buf.length) :
    (GoList.writeToBytes (Fixed.itemCodec l) ⟨xs, cap, A⟩ (BytesWriter.new buf)).1 =
        (((fixedListWire l A xs).length : Int), none) ∧
      (GoList.writeToBytes (Fixed.itemCodec l) ⟨xs, cap, A⟩ (BytesWriter.new buf)).2.bytes =
        fixedListWire l A xs ∧
      (GoList.writeToBytes (Fixed.itemCodec l) ⟨xs, cap, A⟩ (BytesWriter.new buf)).2.b.take
        (fixedListWire l A xs).length = fixedListWire l A xs := by
  unfold fixedListWire at hbuf ⊢
  obtain ⟨h1, h2, -⟩ := GoList.writeTo_appends (Fixed.sized hs) BytesWriter.pro_appends hA xs cap
    (w := Writer.fresh 0) rfl rfl (t := BytesWriter.new buf)
    ⟨Nat.zero_le _, by simpa [BytesWriter.sinkView, BytesWriter.bytes] using hbuf⟩
  have hc := h2.content
  have hok : _ ≤ _ := h2.ok
  simp only [BytesWriter.sinkView, BytesWriter.bytes, BytesWriter.new_n, List.take_zero,
    List.nil_append] at hc hok
  have hn := congrArg List.length hc
  rw [List.length_take, Nat.min_eq_left hok] at hn
  refine ⟨h1, hc, ?_⟩
  rw [← hn]
  exact hc

theorem fixedList_readEOF (hs : 0 < l.size) (hA : Aligns A) (xs : List (Fixed l)) {fuel : Nat}
    (hfuel : xs.length < fuel) :
    (GoList.readFrom (Fixed.itemCodec l) ⟨[], 0, A⟩ BytesReader.Valid.reader fuel
        (BytesReader.Valid.new (fixedListWire l A xs))).1 =
          (((fixedListWire l A xs).length : Int), none) ∧
      (GoList.readFrom (Fixed.itemCodec l) ⟨[], 0, A⟩ BytesReader.Valid.reader fuel
        (BytesReader.Valid.new (fixedListWire l A xs))).2.1 = ⟨xs, xs.length, A⟩ := by
  obtain ⟨e1, e2⟩ := GoList.readLoop_eof (Fixed.sized hs) hA BytesReader.Valid.delivers
    BytesReader.Valid.clean BytesReader.Valid.fills fuel xs fuel 0 0 []
    (BytesReader.Valid.new (fixedListWire l A xs)) hfuel rfl
  simp only [GoList.readFrom, e1, e2]
  simp [fixedListWire]

/-- `ReadFrom` over a `BytesReader` of the wire format, into an empty list of capacity `|xs|`,
recovers the records and returns the format's length: a counted read, or a read until the end
when there are no records. -/
theorem fixedList_readCount (hs : 0 < l.size) (hA : Aligns A) (xs : List (Fixed l)) {fuel : Nat}
    (hfuel : xs.length < fuel) :
    (GoList.readFrom (Fixed.itemCodec l) ⟨[], xs.length, A⟩ BytesReader.Valid.reader fuel
        (BytesReader.Valid.new (fixedListWire l A xs))).1 =
          (((fixedListWire l A xs).length : Int), none) ∧
      (GoList.readFrom (Fixed.itemCodec l) ⟨[], xs.length, A⟩ BytesReader.Valid.reader fuel
        (BytesReader.Valid.new (fixedListWire l A xs))).2.1.items = xs := by
  rcases Nat.eq_zero_or_pos xs.length with h0 | hpos
  · obtain ⟨z1, z2⟩ := fixedList_readEOF hs hA xs hfuel
    rw [h0]
    exact ⟨z1, by rw [z2]⟩
  · obtain ⟨e1, e2, -⟩ := GoList.readLoop_count (Fixed.sized hs) hA BytesReader.Valid.delivers
      BytesReader.Valid.clean BytesReader.Valid.fills hpos fuel xs fuel 0 0 []
      (BytesReader.Valid.new (fixedListWire l A xs)) [] (by simp) hfuel (by simp [fixedListWire])
    simp only [GoList.readFrom, e1, e2]
    simp [fixedListWire]

/-- `WriteTo` into a writer that accepts everything, through the default `bufio.Writer`, emits the
wire format and returns its length. -/
theorem fixedList_writeTo_accepting (hs : 0 < l.size) (hA : Aligns A) (xs : List (Fixed l))
    (cap : Nat) (out : List UInt8) :
    (GoList.writerTo (Fixed.itemCodec l)).writeTo Sink.writer ⟨xs, cap, A⟩ (Sink.accepting out) =
      ((((fixedListWire l A xs).length : Int), none), ⟨xs, cap, A⟩,
        Sink.accepting (out ++ fixedListWire l A xs)) := by
  obtain ⟨w1, w2, w3⟩ := GoList.writeTo_appends (Fixed.sized hs)
    (BufWriter.pro_appends (out ++ fixedListWire l A xs).length) hA xs cap
    (w := Writer.fresh 0) rfl rfl (t := (BufWriter.new 0, Sink.accepting out))
    ⟨⟨rfl, (by decide : 0 < (BufWriter.new 0).size), rfl⟩,
      by simp [BufWriter.acceptingView, BufWriter.new, Sink.accepting, fixedListWire]⟩
  have hfl : _ = [] := w3 rfl rfl
  obtain ⟨out', hout⟩ := BufWriter.exists_accepting w2.ok.2.2
  have hct := w2.content
  simp only [BufWriter.acceptingView, hfl, hout] at hct
  replace hct : out' = out ++ fixedListWire l A xs := by
    simpa [BufWriter.new, Sink.accepting, fixedListWire] using hct
  simp only [GoList.writerTo]
  rw [w1, hout, hct]
  rfl

/-- **List codec round trip.** For records of positive size and an alignment that is `0` or a
power of two: `Size()` is the length of the wire format; `WriteTo` into a writer that accepts
everything emits exactly it and returns its length; `MarshalBinary` returns it and `MarshalTo`
writes it at the front of any buffer that holds it; `ReadFrom` over a `BytesReader` of it, into a
list with no items and capacity `k` or capacity `0`, recovers the records and returns its length;
and `UnmarshalBinary` of it into an empty list recovers the records. -/
theorem list_round_trip (hs : 0 < l.size) (hA : A = 0 ∨ ∃ k : Nat, A = 2 ^ k)
    (xs : List (Fixed l)) (out buf : List UInt8) (hbuf : (fixedListWire l A xs).length ≤ buf.length)
    (fuel : Nat) (hfuel : xs.length < fuel) (checkBufferNotZeros : List UInt8 → Option GoErr) :
    GoList.size (Fixed.itemCodec l) ⟨xs, xs.length, A⟩ = (fixedListWire l A xs).length ∧
      (GoList.writerTo (Fixed.itemCodec l)).writeTo Sink.writer ⟨xs, xs.length, A⟩
          (Sink.accepting out) =
        ((((fixedListWire l A xs).length : Int), none), ⟨xs, xs.length, A⟩,
          Sink.accepting (out ++ fixedListWire l A xs)) ∧
      GoList.marshalBinary (Fixed.itemCodec l) ⟨xs, xs.length, A⟩ = .ok (fixedListWire l A xs) ∧
      (GoList.marshalTo (Fixed.itemCodec l) ⟨xs, xs.length, A⟩ buf).1 =
        (((fixedListWire l A xs).length : Int), none) ∧
      (GoList.marshalTo (Fixed.itemCodec l) ⟨xs, xs.length, A⟩ buf).2.take
        (fixedListWire l A xs).length = fixedListWire l A xs ∧
      (GoList.readFrom (Fixed.itemCodec l) ⟨[], xs.length, A⟩ BytesReader.Valid.reader fuel
          (BytesReader.Valid.new (fixedListWire l A xs))).1 =
        (((fixedListWire l A xs).length : Int), none) ∧
      (GoList.readFrom (Fixed.itemCodec l) ⟨[], xs.length, A⟩ BytesReader.Valid.reader fuel
          (BytesReader.Valid.new (fixedListWire l A xs))).2.1.items = xs ∧
      (GoList.readFrom (Fixed.itemCodec l) ⟨[], 0, A⟩ BytesReader.Valid.reader fuel
          (BytesReader.Valid.new (fixedListWire l A xs))).1 =
        (((fixedListWire l A xs).length : Int), none) ∧
      (GoList.readFrom (Fixed.itemCodec l) ⟨[], 0, A⟩ BytesReader.Valid.reader fuel
          (BytesReader.Valid.new (fixedListWire l A xs))).2.1.items = xs ∧
      GoList.unmarshalBinary (Fixed.itemCodec l) checkBufferNotZeros ⟨[], 0, A⟩
          (fixedListWire l A xs) = (⟨xs, xs.length, A⟩, none) := by
  have hA' : Aligns A := hA
  have hsz := fixedList_size hs hA' xs xs.length
  have hfit : ¬ (buf.length : Int) < (fixedListWire l A xs).length := by omega
  obtain ⟨c1, c2⟩ := fixedList_readCount hs hA' xs hfuel
  obtain ⟨z1, z2⟩ := fixedList_readEOF hs hA' xs hfuel
  -- UnmarshalBinary reads until the end, with one round more than the format has bytes
  obtain ⟨u1, u2⟩ := fixedList_readEOF hs hA' xs
    (Nat.lt_succ_of_le (length_le_listWire hs (Fixed.sized hs).length xs) :
      xs.length < (fixedListWire l A xs).length + 1)
  -- MarshalBinary writes into a slice of exactly the format's length, MarshalTo into `buf`
  obtain ⟨b1, b2, -⟩ := fixedList_writeToBytes hs hA' xs xs.length
    (by simp : _ ≤ (List.replicate (fixedListWire l A xs).length (0 : UInt8)).length)
  obtain ⟨m1, -, m3⟩ := fixedList_writeToBytes hs hA' xs xs.length hbuf
  refine ⟨hsz, fixedList_writeTo_accepting hs hA' xs xs.length out, ?_, ?_, ?_, c1, c2, z1,
    by rw [z2], ?_⟩
  · simp only [GoList.marshalBinary, marshalBinaryGeneric, hsz, Int.toNat_ofNat, b1,
      lt_self_iff_false, if_false, b2]
  · simp only [GoList.marshalTo, marshalToGeneric, hsz, m1, lt_self_iff_false, if_false, hfit]
  · simpa only [GoList.marshalTo, marshalToGeneric, hsz, m1, lt_self_iff_false, if_false, hfit]
      using m3
  · simp only [GoList.unmarshalBinary, unmarshalBinaryGeneric, u1, u2, fixedList_size hs hA',
      lt_self_iff_false, if_false]

/-- Two records of a 16-bit word and a flag: `(0x0102, true)` and `(0x0304, false)`. -/
def wordFlagRecords : List (Fixed (.pair (.word 2) .bool)) :=
  [⟨(BitVec.ofNat _ 0x0102, true)⟩, ⟨(BitVec.ofNat _ 0x0304, false)⟩]

/-- The records of a 16-bit word and a flag meet the hypotheses at alignment four: each record
takes three bytes and all but the last one byte of padding, and `UnmarshalBinary` of the seven
bytes gives the records back. -/
theorem list_round_trip_word_flag :
    (0 < (Layout.pair (.word 2) .bool).size ∧ (4 : Int) = 2 ^ 2 ∧
      wordFlagRecords.length < 3) ∧
      fixedListWire (.pair (.word 2) .bool) 4 wordFlagRecords = [1, 2, 1, 0, 3, 4, 0] ∧
      GoList.unmarshalBinary (Fixed.itemCodec (.pair (.word 2) .bool)) (fun _ => none) ⟨[], 0, 4⟩
        (fixedListWire (.pair (.word 2) .bool) 4 wordFlagRecords) = (⟨wordFlagRecords, 2, 4⟩, none) := by
  have hpad : listPad 4 (Layout.pair (.word 2) .bool).size = 1 := by
    rw [listPad, show (4 : Int) = 2 ^ 2 from rfl, roundup_two_pow]; rfl
  have hwire : fixedListWire (.pair (.word 2) .bool) 4 wordFlagRecords = [1, 2, 1, 0, 3, 4, 0] := by
    rw [fixedListWire, hpad]; decide
  exact ⟨⟨by decide, rfl, by decide⟩, hwire,
    (list_round_trip (l := .pair (.word 2) .bool) (A := 4) (by decide) (.inr ⟨2, rfl⟩)
      wordFlagRecords [] (List.replicate 7 0) (by rw [hwire]; rfl) 3 (by decide)
      (fun _ => none)).2.2.2.2.2.2.2.2.2⟩

end FixedList

/-! ## Reading until the end, on any input -/

section UntilEnd

variable {l : Layout} {r : IoReader σ}

/-- **Until-end ReadFrom takes the first record's error for the end.** When reading the first
record fails, whether the stream ends inside it or the reader fails, `Fixed.ReadFrom` reports `0`
bytes, so the guard `err == io.EOF || read == 0` takes the failure for a clean end: `ReadFrom`
returns no error and no items. -/
theorem readFrom_eof_swallows_error (A : Int) (s : σ) (fuel : Nat)
    (he : ((⟨l.zero⟩ : Fixed l).readFrom r s).1.2 ≠ none) :
    GoList.readFrom (Fixed.itemCodec l) ⟨[], 0, A⟩ r (fuel + 1) s =
      ((0, none), ⟨[], 0, A⟩, ((⟨l.zero⟩ : Fixed l).readFrom r s).2.2) := by
  obtain ⟨e, he'⟩ := Option.ne_none_iff_exists'.mp he
  have h0 := Fixed.readFrom_count_of_err _ s he
  simp only [GoList.readFrom, GoList.readLoop]
  simp [he', h0]

/-- A `uint16` list read until the end from the single byte `1`, and from a reader whose first
read fails: both reads of the first record fail, and both `ReadFrom`s return `(0, nil)`. -/
theorem readFrom_eof_swallows_error_uint16 :
    ((⟨(Layout.word 2).zero⟩ : Fixed (.word 2)).readFrom Source.reader (Source.ofList [1])).1.2 ≠
        none ∧
      (GoList.readFrom (Fixed.itemCodec (.word 2)) ⟨[], 0, 0⟩ Source.reader 1
        (Source.ofList [1])).1 = (0, none) ∧
      ((⟨(Layout.word 2).zero⟩ : Fixed (.word 2)).readFrom Source.reader
        ⟨[1, 2], 0, [⟨1, false, some 5⟩]⟩).1.2 = some (.other 5) ∧
      (GoList.readFrom (Fixed.itemCodec (.word 2)) ⟨[], 0, 0⟩ Source.reader 1
        ⟨[1, 2], 0, [⟨1, false, some 5⟩]⟩).1 = (0, none) :=
  ⟨by decide, by rw [readFrom_eof_swallows_error 0 _ 0 (by decide)], by decide,
    by rw [readFrom_eof_swallows_error 0 _ 0 (by decide)]⟩

/-- With a zero-size record the until-end loop reads nothing and appends one record per round,
whatever the reader and the alignment: the padding after a record of `0` bytes is `0`. -/
theorem readLoop_zero_size (hl : l.size = 0) (A : Int) (fi : Nat) :
    ∀ fuel i n acc (s : σ), GoList.readLoop (Fixed.itemCodec l) r A 0 fi fuel i n acc s =
      ((n, none), acc ++ List.replicate fuel ⟨l.decode defaultOrder []⟩, s)
  | 0, i, n, acc, s => by simp [GoList.readLoop]
  | fuel + 1, i, n, acc, s => by
    have e := Fixed.readFrom_zero_size (r := r) hl ⟨l.zero⟩ s
    have ih := readLoop_zero_size hl A fi fuel (i + 1) n (acc ++ [⟨l.decode defaultOrder []⟩]) s
    rw [List.append_assoc, List.singleton_append, ← List.replicate_succ] at ih
    have hpad : A > 1 → roundup 0 A = 0 := fun hA => roundup_zero_left (by omega)
    by_cases hA : A > 1 <;> simp [GoList.readLoop, e, hA, hpad, ih]

/-- **Until-end ReadFrom of zero-size records never ends.** For a record of size `0`, any
alignment, any reader and any stream, `ReadFrom` into a list of capacity `0` given `fuel` rounds
uses them all: it reads nothing and appends `fuel` records. Go's loop has no bound on its rounds,
so it appends forever. -/
theorem readFrom_zero_size_never_ends (hl : l.size = 0) (A : Int) (s : σ) (fuel : Nat) :
    GoList.readFrom (Fixed.itemCodec l) ⟨[], 0, A⟩ r fuel s =
      ((0, none), ⟨List.replicate fuel ⟨l.decode defaultOrder []⟩, fuel, A⟩, s) := by
  simp [GoList.readFrom, readLoop_zero_size hl]

/-- `Fixed[struct{}]`, read until the end from an empty stream with three rounds, appends three
records. -/
theorem readFrom_zero_size_never_ends_empty :
    Layout.unit.size = 0 ∧
      GoList.readFrom (Fixed.itemCodec .unit) ⟨[], 0, 0⟩ Source.reader 3 (Source.ofList []) =
        ((0, none), ⟨[Fixed.empty, Fixed.empty, Fixed.empty], 3, 0⟩, Source.ofList []) :=
  ⟨rfl, readFrom_zero_size_never_ends (l := .unit) rfl 0 _ 3⟩

end UntilEnd

end Codec
