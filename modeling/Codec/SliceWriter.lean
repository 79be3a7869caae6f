import Codec.Bufio.Writer

/-!
# `BytesWriter` is a bounded buffer

What a `*BytesWriter` is for, said without slices: a buffer of fixed capacity, to which every
write appends as much of what it is given as still fits, and which `Reset` empties (`BoundedBuf`).
The writer's slice `B` and position `N` denote such a buffer (`BytesWriter.toBuf`): its capacity
is `len(B)` and its contents are `Bytes()`.

* `BytesWriter.put_toBuf`: `copy(B[N:], p)` followed by `N += n` appends to the buffer the prefix
  of `p` that fits. Every call below is this step or does nothing, and a call that does nothing
  finds the buffer full.
* `SliceOp.exec_refines`: each call that changes the writer (`Write`, `WriteString`, `WriteByte`,
  `WriteZeros` on either of its paths, `ReadFrom`, `Reset`) acts on the denoted buffer as the
  buffer's own operation, and keeps `N ≤ len(B)`.
* `run_refines_boundedBuf`: so from `NewBytesWriter(p)` every run of such calls keeps
  `N ≤ len(B) = len(p)`, and `Bytes()` is what the bounded buffer of capacity `len(p)` holds after
  the same calls.

What the calls return is not part of the buffer; where it departs from the documented contract
`bytesWriter_contract_breaks` says so.
-/

namespace Codec

/-- A buffer of fixed capacity holding what was written to it. -/
structure BoundedBuf where
  cap : Nat
  data : List UInt8
  fits : data.length ≤ cap

namespace BoundedBuf

/-- The room left. -/
def room (a : BoundedBuf) : Nat := a.cap - a.data.length

/-- Append as much of `p` as fits. -/
def append (a : BoundedBuf) (p : List UInt8) : BoundedBuf :=
  ⟨a.cap, a.data ++ p.take a.room, by
    have := a.fits; simp only [room, List.length_append, List.length_take]; omega⟩

/-- Empty the buffer. -/
def clear (a : BoundedBuf) : BoundedBuf := ⟨a.cap, [], Nat.zero_le _⟩

/-- The empty buffer of capacity `cap`. -/
def empty (cap : Nat) : BoundedBuf := ⟨cap, [], Nat.zero_le _⟩

@[ext] theorem ext {a b : BoundedBuf} (hc : a.cap = b.cap) (hd : a.data = b.data) : a = b := by
  cases a; cases b; simp only at hc hd; subst hc hd; rfl

/-- A full buffer takes nothing. -/
theorem append_of_full {a : BoundedBuf} (h : a.room = 0) (p : List UInt8) : a.append p = a := by
  ext <;> simp [append, h]

end BoundedBuf

namespace BytesWriter

/-- The bounded buffer a slice writer denotes: capacity `len(B)`, contents `Bytes()`. -/
def toBuf (w : BytesWriter) : BoundedBuf :=
  ⟨w.b.length, w.bytes, by simp only [bytes, List.length_take]; omega⟩

theorem room_toBuf {w : BytesWriter} (h : w.n ≤ w.b.length) : w.toBuf.room = w.b.length - w.n := by
  simp [toBuf, BoundedBuf.room, bytes, h]

/-- **`copy(B[N:], p)`, then `N += n`, appends to the buffer what fits of `p`.** -/
theorem put_toBuf {w : BytesWriter} (h : w.n ≤ w.b.length) (p : List UInt8) :
    (w.put p).toBuf = w.toBuf.append p := by
  have hk : p.take (min p.length (w.b.length - w.n)) = p.take (w.b.length - w.n) := by
    rcases le_total p.length (w.b.length - w.n) with hp | hp
    · rw [Nat.min_eq_left hp, List.take_length, List.take_of_length_le hp]
    · rw [Nat.min_eq_right hp]
  refine BoundedBuf.ext (put_length w p h) ?_
  show (w.put p).bytes = w.bytes ++ p.take w.toBuf.room
  rw [room_toBuf h, ← hk]
  exact List.take_left' (by simp only [bytes, put_n, List.length_append, List.length_take]; omega)

/-- `copy` only looks at the prefix of `p` that fits. -/
theorem put_take (w : BytesWriter) (p : List UInt8) : w.put (p.take (w.b.length - w.n)) = w.put p := by
  have hk : min (p.take (w.b.length - w.n)).length (w.b.length - w.n) =
      min p.length (w.b.length - w.n) := by
    simp only [List.length_take]; omega
  simp only [put, hk, List.take_take, Nat.min_eq_left (Nat.min_le_right _ _)]

theorem put_sound {w : BytesWriter} (h : w.n ≤ w.b.length) (p : List UInt8) :
    (w.put p).n ≤ (w.put p).b.length := by
  rw [put_length w p h, put_n]; omega

/-- A writer at the end of its slice denotes a full buffer. -/
theorem room_toBuf_of_full {w : BytesWriter} (h : w.n ≤ w.b.length) (hf : w.b.length ≤ w.n) :
    w.toBuf.room = 0 := by
  rw [room_toBuf h]; omega

end BytesWriter

/-- The calls of a `*BytesWriter` that change it: `Write`, `WriteString`, `WriteByte`,
`WriteZeros(n)` for `n ≥ 0`, `ReadFrom(r)` over a reader in state `s`, and `Reset`. -/
inductive SliceOp : Type 1 where
  | write (p : List UInt8)
  | writeString (str : List UInt8)
  | writeByte (c : UInt8)
  | writeZeros (n : Nat)
  | readFrom {σ : Type} (r : IoReader σ) (s : σ)
  | reset

namespace SliceOp

/-- Run one call on the writer. -/
def exec : SliceOp → BytesWriter → BytesWriter
  | write p, w => (w.write p).2
  | writeString str, w => (BytesWriter.writeString str w).2
  | writeByte c, w => (w.writeByte c).2
  | writeZeros n, w => (BytesWriter.writeZeros n w).2
  | readFrom r s, w => (BytesWriter.readFrom r w s).2.1
  | reset, w => w.reset

/-- The same call on the bounded buffer: what it is given is appended, as much as fits; what
`ReadFrom` is given is what one read of the room left hands over. -/
def spec : SliceOp → BoundedBuf → BoundedBuf
  | write p, a => a.append p
  | writeString str, a => a.append str
  | writeByte c, a => a.append [c]
  | writeZeros n, a => a.append (List.replicate n 0)
  | readFrom r s, a => a.append (r.read a.room s).1.bytes
  | reset, a => a.clear

/-- Run calls one after another on the writer. -/
def run : List SliceOp → BytesWriter → BytesWriter
  | [], w => w
  | op :: ops, w => run ops (op.exec w)

/-- Run calls one after another on the buffer. -/
def specRun : List SliceOp → BoundedBuf → BoundedBuf
  | [], a => a
  | op :: ops, a => specRun ops (op.spec a)

/-- The capacity never changes. -/
theorem specRun_cap : ∀ (ops : List SliceOp) (a : BoundedBuf), (specRun ops a).cap = a.cap
  | [], _ => rfl
  | op :: ops, a => (specRun_cap ops _).trans (by cases op <;> rfl)

/-- A call that either appends what fits of `p` or finds the writer full and changes nothing
acts on the buffer as appending `p`. -/
theorem put_or_full {w w' : BytesWriter} (h : w.n ≤ w.b.length) (p : List UInt8)
    (hw : (w.b.length ≤ w.n ∧ w' = w) ∨ w' = w.put p) :
    w'.n ≤ w'.b.length ∧ w'.toBuf = w.toBuf.append p := by
  rcases hw with ⟨hf, rfl⟩ | rfl
  · exact ⟨h, (BoundedBuf.append_of_full (BytesWriter.room_toBuf_of_full h hf) p).symm⟩
  · exact ⟨BytesWriter.put_sound h p, BytesWriter.put_toBuf h p⟩

/-- **Every call acts on the denoted buffer as the buffer's own operation**, and keeps the
position within the slice. -/
theorem exec_refines (op : SliceOp) {w : BytesWriter} (h : w.n ≤ w.b.length) :
    (op.exec w).n ≤ (op.exec w).b.length ∧ (op.exec w).toBuf = op.spec w.toBuf := by
  cases op with
  | write p | writeString p =>
    apply put_or_full h p
    by_cases hf : w.b.length ≤ w.n
    · exact .inl ⟨hf, by simp [exec, BytesWriter.writeString, BytesWriter.write, hf]⟩
    · exact .inr (by simp [exec, BytesWriter.writeString, BytesWriter.write, hf])
  | writeByte c =>
    apply put_or_full h [c]
    by_cases hf : w.b.length ≤ w.n
    · exact .inl ⟨hf, by simp [exec, BytesWriter.writeByte, hf]⟩
    · exact .inr (by simp [exec, BytesWriter.writeByte, hf])
  | writeZeros n =>
    apply put_or_full h (List.replicate n 0)
    by_cases hf : w.b.length ≤ w.n
    · exact .inl ⟨hf, by simp [exec, BytesWriter.writeZeros, hf]⟩
    right
    by_cases hn : n ≤ bufferSize
    · simp [exec, BytesWriter.writeZeros, hf, hn]
    · -- beyond `BUFFER_SIZE`: one read of the room left from `n` zeros
      have hz := zero_limit_read (w.b.length - w.n) (show (0 : Int) < n by
        unfold bufferSize at hn; omega)
      simp only [exec, BytesWriter.writeZeros, BytesWriter.readFrom, hf, hn, if_false, hz,
        Int.toNat_ofNat]
      rw [← BytesWriter.put_take w (List.replicate n 0), List.take_replicate]
  | readFrom r s =>
    show _ ∧ _ = w.toBuf.append (r.read w.toBuf.room s).1.bytes
    rw [BytesWriter.room_toBuf h]
    apply put_or_full h
    by_cases hf : w.b.length ≤ w.n
    · exact .inl ⟨hf, by simp [exec, BytesWriter.readFrom, hf]⟩
    · exact .inr (by simp [exec, BytesWriter.readFrom, hf])
  | reset =>
    refine ⟨Nat.zero_le _, ?_⟩
    ext <;> simp [exec, spec, BoundedBuf.clear, BytesWriter.reset, BytesWriter.toBuf, BytesWriter.bytes]

theorem run_refines : ∀ (ops : List SliceOp) {w : BytesWriter}, w.n ≤ w.b.length →
    (run ops w).n ≤ (run ops w).b.length ∧ (run ops w).toBuf = specRun ops w.toBuf
  | [], _, h => ⟨h, rfl⟩
  | op :: ops, w, h => by
    obtain ⟨h', e⟩ := exec_refines op h
    simpa only [run, specRun, e] using run_refines ops h'

end SliceOp

/-- **A `*BytesWriter` is a bounded buffer.** From `NewBytesWriter(p)`, after any calls of
`Write`, `WriteString`, `WriteByte`, `WriteZeros(n ≥ 0)`, `ReadFrom` over any readers and `Reset`,
in any order and with any inputs: `0 ≤ N ≤ len(B) = len(p)`, and `Bytes()` holds what a buffer of
capacity `len(p)` holds after the same calls, each appending the prefix of its input that fits,
`ReadFrom`'s input being what one read of the room left hands over, and `Reset` emptying it. -/
theorem run_refines_boundedBuf (p : List UInt8) (ops : List SliceOp) :
    (SliceOp.run ops (BytesWriter.new p)).n ≤ (SliceOp.run ops (BytesWriter.new p)).b.length ∧
      (SliceOp.run ops (BytesWriter.new p)).b.length = p.length ∧
      (SliceOp.run ops (BytesWriter.new p)).bytes = (SliceOp.specRun ops (BoundedBuf.empty p.length)).data := by
  obtain ⟨h, e⟩ := SliceOp.run_refines ops (show (BytesWriter.new p).n ≤ (BytesWriter.new p).b.length
    from Nat.zero_le _)
  have e0 : (BytesWriter.new p).toBuf = BoundedBuf.empty p.length := by
    ext <;> simp [BytesWriter.toBuf, BoundedBuf.empty, BytesWriter.bytes, BytesWriter.new]
  rw [e0] at e
  exact ⟨h, (congrArg BoundedBuf.cap e).trans (SliceOp.specRun_cap ops _), congrArg BoundedBuf.data e⟩

end Codec
