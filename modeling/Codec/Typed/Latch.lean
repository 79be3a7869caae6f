import Codec.Typed.Writer
import Codec.Typed.Reader

/-!
# A latched error is absorbing

Both typed streams keep the first error they meet and turn every later call into a no-op that
answers with it. This file lists the calls of each as a small language (`WriterOp`, `ReaderOp`),
whose `exec` runs the modelled function of each call and hands back what the call returns, the
call with its destination arguments as the call left them, and the new header and stream state.

**Main result** (`latched_error_absorbing`): from any header with a latched error, every call
leaves the header, the stream state and its own arguments as they were, and every error it returns
is the latched one. `Align` is the one call that does not test the error itself: it reaches the
source through `Discard` and the typed reader's own `Read`, which is stalled (`ioReader_stalled`).
Runs of calls of any length follow by induction (`WriterOp.run_latched`, `ReaderOp.run_latched`).
-/

namespace Codec

/-- What a call hands back to its caller, besides its destination arguments. -/
inductive Answer where
  | none
  | err (e : Option GoErr)
  | count (n : Int) (e : Option GoErr)
  | byte (b : UInt8) (e : Option GoErr)
  | bytes (b : Option (List UInt8))

/-- The errors an answer hands back. -/
def Answer.errs : Answer → List (Option GoErr)
  | .none | .bytes _ => []
  | .err e | .count _ e | .byte _ e => [e]

/-! ## The writer's calls -/

/-- The calls of a typed `Writer` besides `Close` and `WithByteOrder`. `σ` is the state of a
reader handed to `ReadFrom`, `ω` the state of a value handed to `WriteFrom`. -/
inductive WriterOp (σ ω : Type) : Type 1 where
  | write (buf : Option (List UInt8))
  | writeString (str : List UInt8)
  | writeByte (v : UInt8)
  | writeBool (v : Bool)
  | writeUint8 (v : UInt8)
  | writeInt8 (v : BitVec 8)
  | writeUint16 (v : UInt16)
  | writeUint32 (v : UInt32)
  | writeUint64 (v : UInt64)
  | writeInt16 (v : BitVec 16)
  | writeInt32 (v : BitVec 32)
  | writeInt64 (v : BitVec 64)
  | writeBytes (buf : Option (List UInt8))
  | writeZeros (n : Int)
  | align (n : Int)
  | writeFrom (wt : Option (IoWriterTo ω)) (v : ω)
  | readFrom (r : Option (IoReader σ)) (fuel : Nat) (s : σ)
  | flush
  | result

namespace WriterOp

variable {σ ω τ : Type} (p : WriterPro τ)

/-- Run one call: its answer, the call as it left its arguments, the header and the sink. -/
def exec : WriterOp σ ω → Writer → τ → Answer × WriterOp σ ω × Writer × τ
  | write buf, w, t => let o := w.write p buf t; (.count o.1.1 o.1.2, write buf, o.2)
  | writeString str, w, t => let o := w.writeString p str t; (.count o.1.1 o.1.2, writeString str, o.2)
  | writeByte v, w, t => let o := w.writeByte p v t; (.err o.1, writeByte v, o.2)
  | writeBool v, w, t => (.none, writeBool v, w.writeBool p v t)
  | writeUint8 v, w, t => (.none, writeUint8 v, w.writeUint8 p v t)
  | writeInt8 v, w, t => (.none, writeInt8 v, w.writeInt8 p v t)
  | writeUint16 v, w, t => (.none, writeUint16 v, w.writeUint16 p v t)
  | writeUint32 v, w, t => (.none, writeUint32 v, w.writeUint32 p v t)
  | writeUint64 v, w, t => (.none, writeUint64 v, w.writeUint64 p v t)
  | writeInt16 v, w, t => (.none, writeInt16 v, w.writeInt16 p v t)
  | writeInt32 v, w, t => (.none, writeInt32 v, w.writeInt32 p v t)
  | writeInt64 v, w, t => (.none, writeInt64 v, w.writeInt64 p v t)
  | writeBytes buf, w, t => (.none, writeBytes buf, w.writeBytes p buf t)
  | writeZeros n, w, t => (.none, writeZeros n, w.writeZeros p n t)
  | align n, w, t => (.none, align n, w.align p n t)
  | writeFrom wt v, w, t => let o := w.writeFrom p wt v t; (.none, writeFrom wt o.1, o.2)
  | readFrom r f s, w, t =>
    let o := w.readFrom p r f s t; (.count o.1.1 o.1.2, readFrom r f o.2.1, o.2.2)
  | flush, w, t => let o := w.flush p t; (.err o.1, flush, o.2)
  | result, w, t => let o := w.result p t; (.count o.1.1 o.1.2, result, o.2)

/-- Run calls one after another, collecting the answers and the calls as they were left. -/
def run : List (WriterOp σ ω) → Writer → τ → List Answer × List (WriterOp σ ω) × Writer × τ
  | [], w, t => ([], [], w, t)
  | op :: ops, w, t =>
    let o := op.exec p w t
    let rest := run ops o.2.2.1 o.2.2.2
    (o.1 :: rest.1, o.2.1 :: rest.2.1, rest.2.2)

/-- **One writer call on a latched error changes nothing** and answers with the error. -/
theorem exec_latched (op : WriterOp σ ω) (w : Writer) (t : τ) (h : w.err ≠ none) :
    (op.exec p w t).2 = (op, w, t) ∧ ∀ e ∈ (op.exec p w t).1.errs, e = w.err := by
  cases op <;>
    simp [exec, Answer.errs, Writer.write, Writer.writeString, Writer.writeByte,
      Writer.writeBool, Writer.writeUint8, Writer.writeInt8, Writer.writeUint16, Writer.writeUint32,
      Writer.writeUint64, Writer.writeInt16, Writer.writeInt32, Writer.writeInt64,
      Writer.writeBytes, Writer.writeZeros, Writer.align, Writer.writeFrom, Writer.readFrom,
      Writer.flush, Writer.result, Writer.putByte, Writer.putWord, h] <;>
    split <;> simp [h]

/-- A run of writer calls on a latched error changes nothing. -/
theorem run_latched (w : Writer) (t : τ) (h : w.err ≠ none) :
    ∀ ops : List (WriterOp σ ω), (run p ops w t).2 = (ops, w, t) ∧
      ∀ a ∈ (run p ops w t).1, ∀ e ∈ a.errs, e = w.err
  | [] => by simp [run]
  | op :: ops => by
    obtain ⟨hs, he⟩ := exec_latched p op w t h
    obtain ⟨ihs, ihe⟩ := run_latched w t h ops
    simp only [run, hs] at ihs ihe ⊢
    refine ⟨by rw [ihs], ?_⟩
    intro a ha
    rcases List.mem_cons.mp ha with rfl | ha
    exacts [he, ihe a ha]

end WriterOp

/-! ## The reader's calls -/

/-- The calls of a typed `Reader` besides `Close` and `WithByteOrder`. `τ` is the state of a
writer handed to `WriteTo`, `φ` the state of a value handed to `ReadTo`; `read buf` is
`Read(buf)`, which fills a prefix of `buf`. -/
inductive ReaderOp (τ φ : Type) : Type 1 where
  | read (buf : List UInt8)
  | readByte
  | readBool (dest : Bool)
  | readUint8 (dest : UInt8)
  | readInt8 (dest : BitVec 8)
  | readUint16 (dest : UInt16)
  | readUint32 (dest : UInt32)
  | readUint64 (dest : UInt64)
  | readInt16 (dest : BitVec 16)
  | readInt32 (dest : BitVec 32)
  | readInt64 (dest : BitVec 64)
  | readBytes (n : Int)
  | readBytesTo (dest : List UInt8)
  | align (n : Int)
  | seek (offset : Int) (whence : Whence)
  | writeTo (w : Option (IoWriter τ)) (fuel : Nat) (t : τ)
  | readTo (rf : Option (IoReaderFrom φ)) (fuel : Nat) (v : φ)
  | result

namespace ReaderOp

variable {τ φ ρ : Type} (p : ReaderPro ρ)

/-- Run one call: its answer, the call as it left its arguments, the header and the source. -/
def exec : ReaderOp τ φ → Reader → ρ → Answer × ReaderOp τ φ × Reader × ρ
  | read buf, r, s =>
    let o := r.read p buf.length s
    (.count o.1.bytes.length o.1.err, read (o.1.bytes ++ buf.drop o.1.bytes.length), o.2)
  | readByte, r, s => let o := r.readByte p s; (.byte o.1.1 o.1.2, readByte, o.2)
  | readBool d, r, s => let o := r.readBool p d s; (.none, readBool o.1, o.2)
  | readUint8 d, r, s => let o := r.readUint8 p d s; (.none, readUint8 o.1, o.2)
  | readInt8 d, r, s => let o := r.readInt8 p d s; (.none, readInt8 o.1, o.2)
  | readUint16 d, r, s => let o := r.readUint16 p d s; (.none, readUint16 o.1, o.2)
  | readUint32 d, r, s => let o := r.readUint32 p d s; (.none, readUint32 o.1, o.2)
  | readUint64 d, r, s => let o := r.readUint64 p d s; (.none, readUint64 o.1, o.2)
  | readInt16 d, r, s => let o := r.readInt16 p d s; (.none, readInt16 o.1, o.2)
  | readInt32 d, r, s => let o := r.readInt32 p d s; (.none, readInt32 o.1, o.2)
  | readInt64 d, r, s => let o := r.readInt64 p d s; (.none, readInt64 o.1, o.2)
  | readBytes n, r, s => let o := r.readBytes p n s; (.bytes o.1, readBytes n, o.2)
  | readBytesTo d, r, s => let o := r.readBytesTo p d s; (.none, readBytesTo o.1, o.2)
  | align n, r, s => (.none, align n, r.align p n s)
  | seek off wh, r, s => let o := r.seek p off wh s; (.count o.1.1 o.1.2, seek off wh, o.2)
  | writeTo w f t, r, s =>
    let o := r.writeTo p w f t s; (.count o.1.1 o.1.2, writeTo w f o.2.1, o.2.2)
  | readTo rf f v, r, s => let o := r.readTo p rf f v s; (.none, readTo rf f o.1, o.2)
  | result, r, s => let o := r.result s; (.count o.1.1 o.1.2, result, o.2)

/-- Run calls one after another, collecting the answers and the calls as they were left. -/
def run : List (ReaderOp τ φ) → Reader → ρ → List Answer × List (ReaderOp τ φ) × Reader × ρ
  | [], r, s => ([], [], r, s)
  | op :: ops, r, s =>
    let o := op.exec p r s
    let rest := run ops o.2.2.1 o.2.2.2
    (o.1 :: rest.1, o.2.1 :: rest.2.1, rest.2.2)

/-- A typed reader with a latched error is stalled as an `io.Reader`. -/
theorem ioReader_stalled {r : Reader} (s : ρ) (h : r.err ≠ none) :
    (Reader.ioReader p).Stalled (r, s) := fun n => by
  simp [Reader.ioReader, Reader.read, h]

/-- **One reader call on a latched error changes nothing** and answers with the error. -/
theorem exec_latched (op : ReaderOp τ φ) (r : Reader) (s : ρ) (h : r.err ≠ none) :
    (op.exec p r s).2 = (op, r, s) ∧ ∀ e ∈ (op.exec p r s).1.errs, e = r.err := by
  cases op with
  | align n =>
    refine ⟨?_, by simp [exec, Answer.errs]⟩
    by_cases hn : n > 1
    · simp only [exec, Reader.align, if_pos hn, discard_stalled (ioReader_stalled p s h)]
    · simp only [exec, Reader.align, if_neg hn]
  | readBytes n =>
    by_cases hn : n ≤ 0 <;> simp [exec, Answer.errs, Reader.readBytes, Reader.readFull, hn, h]
  | _ =>
    simp [exec, Answer.errs, Reader.read, Reader.readByte, Reader.readBool, Reader.readUint8,
      Reader.readInt8, Reader.readUint16, Reader.readUint32, Reader.readUint64, Reader.readInt16,
      Reader.readInt32, Reader.readInt64, Reader.readBytesTo, Reader.seek, Reader.writeTo,
      Reader.readTo, Reader.result, Reader.getByte, Reader.getWord, Reader.readFull, h]

/-- A run of reader calls on a latched error changes nothing. -/
theorem run_latched (r : Reader) (s : ρ) (h : r.err ≠ none) :
    ∀ ops : List (ReaderOp τ φ), (run p ops r s).2 = (ops, r, s) ∧
      ∀ a ∈ (run p ops r s).1, ∀ e ∈ a.errs, e = r.err
  | [] => by simp [run]
  | op :: ops => by
    obtain ⟨hs, he⟩ := exec_latched p op r s h
    obtain ⟨ihs, ihe⟩ := run_latched r s h ops
    simp only [run, hs] at ihs ihe ⊢
    refine ⟨by rw [ihs], ?_⟩
    intro a ha
    rcases List.mem_cons.mp ha with rfl | ha
    exacts [he, ihe a ha]

end ReaderOp

/-- **Error latching is absorbing, for both streams.** From a writer or reader header with a
latched error, over any sink or source, every call other than `Close` and `WithByteOrder` leaves
the header (count and error), the stream state and the call's own arguments unchanged, and every
error it returns is the latched one. -/
theorem latched_error_absorbing :
    (∀ {σ ω τ : Type} (p : WriterPro τ) (op : WriterOp σ ω) (count : Int) (e : GoErr)
        (depth : Nat) (order : ByteOrder) (t : τ),
      (op.exec p ⟨count, some e, depth, order⟩ t).2 = (op, ⟨count, some e, depth, order⟩, t) ∧
        ∀ x ∈ (op.exec p ⟨count, some e, depth, order⟩ t).1.errs, x = some e) ∧
    (∀ {τ φ ρ : Type} (p : ReaderPro ρ) (op : ReaderOp τ φ) (count : Int) (e : GoErr)
        (order : ByteOrder) (s : ρ),
      (op.exec p ⟨count, some e, order⟩ s).2 = (op, ⟨count, some e, order⟩, s) ∧
        ∀ x ∈ (op.exec p ⟨count, some e, order⟩ s).1.errs, x = some e) :=
  ⟨fun p op _ _ _ _ t => WriterOp.exec_latched p op _ t (Option.some_ne_none _),
    fun p op _ _ _ s => ReaderOp.exec_latched p op _ s (Option.some_ne_none _)⟩

end Codec
