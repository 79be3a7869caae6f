import Codec.BytesBuffer
import Codec.Fixed

/-!
# The streaming adapters of `part_007`: `ReadFromGeneric` and `WriteToGeneric`

`ReadFromGeneric` gives any `encoding.BinaryUnmarshaler` an `io.ReaderFrom`: it reads the whole
stream into a pooled `bytes.Buffer` and unmarshals that. `WriteToGeneric` gives any
`encoding.BinaryMarshaler` an `io.WriterTo`: it marshals and writes the slice in one call.

Over a reader that only ever ends, `ReadFromGeneric` hands `UnmarshalBinary` exactly the stream
(`readFromGeneric_spec`); into a sink that accepts everything, `WriteToGeneric` writes exactly the
marshalled bytes. So a `Fixed` record sent through the pair comes back, any bytes after it judged
as its `UnmarshalBinary` judges trailing data (`fixed_generic_round_trip`).
-/

namespace Codec

variable {σ τ φ : Type}

/-- Go's `ReadFromGeneric(v, r)`, with `fuel` rounds for the buffer's `ReadFrom`: read all of `r`
into the pooled `bytes.Buffer`, emptied by `Reset`, and hand its bytes to the value's
`UnmarshalBinary`. Returns the count, the error, the value and the reader. -/
def readFromGeneric (unmarshalBinary : φ → List UInt8 → φ × Option GoErr) (r : IoReader σ)
    (fuel : Nat) (v : φ) (s : σ) : (Int × Option GoErr) × φ × σ :=
  let o := BytesBuffer.readFrom r fuel ⟨[]⟩ s
  match o.1.2 with
  | some e => ((o.1.1, some e), v, o.2.2)
  | none => let u := unmarshalBinary v o.2.1.data; ((o.1.1, u.2), u.1, o.2.2)

/-- Go's `WriteToGeneric(v, w)`: marshal the value, then write the slice in one call, a short
count without an error becoming `io.ErrShortWrite`. -/
def writeToGeneric (marshalBinary : Except GoErr (List UInt8)) (w : IoWriter τ) (t : τ) :
    (Int × Option GoErr) × τ :=
  match marshalBinary with
  | .error e => ((0, some e), t)
  | .ok buf =>
    let o := w.write buf t
    if o.1.err ≠ none then ((o.1.n, o.1.err), o.2)
    else if o.1.n < buf.length then ((o.1.n, some .shortWrite), o.2)
    else ((o.1.n, none), o.2)

/-- **ReadFromGeneric unmarshals exactly the stream.** Over a reader that only ever ends, it reads
everything left, hands all of it to `UnmarshalBinary`, and reports its length with the
unmarshaller's error. -/
theorem readFromGeneric_spec {r : IoReader σ} {view : σ → List UInt8} (h : r.Delivers view)
    (hc : r.Clean) (unmarshalBinary : φ → List UInt8 → φ × Option GoErr) (v : φ) (s : σ)
    {fuel : Nat} (hf : (view s).length < fuel) :
    ∃ s', view s' = [] ∧
      readFromGeneric unmarshalBinary r fuel v s =
        ((((view s).length : Int), (unmarshalBinary v (view s)).2), (unmarshalBinary v (view s)).1, s') := by
  obtain ⟨s', hv, e⟩ := BytesBuffer.readFrom_clean h hc ⟨[]⟩ s hf
  exact ⟨s', hv, by simp only [readFromGeneric, e, List.nil_append]⟩

/-- Three bytes of a `*BytesReader` handed to an unmarshaller that keeps their number. -/
theorem readFromGeneric_spec_bytes :
    ∃ s', BytesReader.Valid.rest s' = [] ∧
      readFromGeneric (fun (_ : Nat) d => (d.length, none)) BytesReader.Valid.reader 4 0
          (BytesReader.Valid.new [1, 2, 3]) = ((3, none), 3, s') :=
  readFromGeneric_spec BytesReader.Valid.delivers BytesReader.Valid.clean _ 0
    (BytesReader.Valid.new [1, 2, 3]) (show [1, 2, 3].length < 4 by decide)

/-- **WriteToGeneric** of marshalled bytes into a sink that accepts everything writes them all. -/
theorem writeToGeneric_accepting (buf out : List UInt8) :
    writeToGeneric (.ok buf) Sink.writer (Sink.accepting out) =
      (((buf.length : Int), none), Sink.accepting (out ++ buf)) := by
  simp [writeToGeneric, Sink.accepting, Sink.write]

/-- **A `Fixed` record goes through `WriteToGeneric` and `ReadFromGeneric`.** A record of positive
size, written by `WriteToGeneric` into a sink that accepts everything, is sent as its encoding
with its size and no error. Read back by `ReadFromGeneric` from any reader that only ever ends and
delivers that encoding followed by bytes `t`, it comes back, with the count of all the bytes read.
The read fails exactly when `t` is more than `MAX_PADDING` bytes or holds a non-zero byte. -/
theorem fixed_generic_round_trip {l : Layout} (c c₀ : Fixed l) (h : 0 < l.size) (out : List UInt8)
    {r : IoReader σ} {view : σ → List UInt8} (hd : r.Delivers view) (hc : r.Clean) (s : σ)
    (t : List UInt8) (hv : view s = l.encode defaultOrder c.payload ++ t) {fuel : Nat}
    (hf : (view s).length < fuel) :
    writeToGeneric c.marshalBinary Sink.writer (Sink.accepting out) =
        (((l.size : Int), none), Sink.accepting (out ++ l.encode defaultOrder c.payload)) ∧
      (readFromGeneric Fixed.unmarshalBinary r fuel c₀ s).1.1 = l.size + t.length ∧
      (readFromGeneric Fixed.unmarshalBinary r fuel c₀ s).2.1.payload = c.payload ∧
      ((readFromGeneric Fixed.unmarshalBinary r fuel c₀ s).1.2 = none ↔
        t.length ≤ maxPadding ∧ ∀ b ∈ t, b = 0) := by
  obtain ⟨s', -, e0⟩ := BytesBuffer.readFrom_clean hd hc ⟨[]⟩ s hf
  have e : readFromGeneric Fixed.unmarshalBinary r fuel c₀ s =
      ((((view s).length : Int), (c₀.unmarshalBinary (view s)).2), (c₀.unmarshalBinary (view s)).1, s') := by
    simp only [readFromGeneric, e0, List.nil_append]
  obtain ⟨hp, herr⟩ := c₀.unmarshalBinary_encode c.payload t
  refine ⟨?_, ?_, ?_, ?_⟩
  · rw [Fixed.marshalBinary_eq c h, writeToGeneric_accepting, Layout.length_encode]
  · rw [e, hv]; simp [Layout.length_encode]
  · rw [e, hv]; exact hp
  · rw [e, hv]; exact herr

/-- A `uint16` record, followed by one zero byte, through the pair over a `*BytesReader`. -/
theorem fixed_generic_round_trip_word :
    writeToGeneric (⟨0x1234#16⟩ : Fixed (.word 2)).marshalBinary Sink.writer (Sink.accepting []) =
        ((((Layout.word 2).size : Int), none),
          Sink.accepting ([] ++ Layout.encode defaultOrder (.word 2) (0x1234#16 : BitVec 16))) ∧
      (readFromGeneric Fixed.unmarshalBinary BytesReader.Valid.reader 5 (⟨0#16⟩ : Fixed (.word 2))
          (BytesReader.Valid.new (Layout.encode defaultOrder (.word 2) (0x1234#16 : BitVec 16) ++ [0]))).1.1 =
        (Layout.word 2).size + [(0 : UInt8)].length ∧
      (readFromGeneric Fixed.unmarshalBinary BytesReader.Valid.reader 5 (⟨0#16⟩ : Fixed (.word 2))
          (BytesReader.Valid.new (Layout.encode defaultOrder (.word 2) (0x1234#16 : BitVec 16) ++ [0]))).2.1.payload =
        (0x1234#16 : BitVec 16) ∧
      ((readFromGeneric Fixed.unmarshalBinary BytesReader.Valid.reader 5 (⟨0#16⟩ : Fixed (.word 2))
          (BytesReader.Valid.new (Layout.encode defaultOrder (.word 2) (0x1234#16 : BitVec 16) ++ [0]))).1.2 = none ↔
        [(0 : UInt8)].length ≤ maxPadding ∧ ∀ b ∈ [(0 : UInt8)], b = 0) :=
  fixed_generic_round_trip (⟨0x1234#16⟩ : Fixed (.word 2)) ⟨0#16⟩ (by decide) []
    BytesReader.Valid.delivers BytesReader.Valid.clean
    (BytesReader.Valid.new (Layout.encode defaultOrder (.word 2) (0x1234#16 : BitVec 16) ++ [0])) [0] rfl
    (show (Layout.encode defaultOrder (.word 2) (0x1234#16 : BitVec 16) ++ [0]).length < 5 by decide)

end Codec
