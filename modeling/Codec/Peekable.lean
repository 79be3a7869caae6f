import Codec.Bytes

/-!
# `PeekableReader`: lookahead over a reader (`part_001`)

A `PeekableReader` keeps the bytes it has peeked in a buffer `B` in front of its reader `R`.
`Peek(n)` tops the buffer up to `n` bytes with the loop of `io.ReadAtLeast` and hands it out
without consuming it; `Read(p)` serves from the buffer and, once the request outgrows it, hands
the whole buffer over and reads the rest from `R`.

What it is for is stated as an abstract model, `Transparent s ops outs s'`: a stream `s` of bytes
on which a `Peek(k)` sees the next `k` bytes and consumes nothing, and a `Read` consumes a prefix,
at least one byte when it asks for one and any is left, with `io.EOF` only at the end. The bytes
still to come out of a peekable reader are its buffer followed by what its reader holds
(`pending`); over a reader that only ever ends, in any chunking, every run of calls is
`Transparent` over them (`run_transparent`).

**Main result** (`peekable_transparent`): the bytes of all `Read`s, followed by what is still
pending, are the stream, and once a `Read` reports `io.EOF` they are all of it; `m` `Read`s that
each ask for a byte return at least `m` bytes, or the whole stream; every `Peek(k)` returns the
next `k` bytes or all that remain.

`WriteTo` hands over every pending byte on its copy path into a writer that takes everything
(`writeTo_copies_pending`); its other paths, and writers that take part of a chunk, lose bytes or
counts (`writeTo_loses_bytes`).
-/

namespace Codec

variable {σ : Type}

/-- Go's `PeekableReader`: the reader's state `r` and the peek buffer `b`. -/
structure PeekableReader (σ : Type) where
  r : σ
  b : List UInt8

namespace PeekableReader

variable (src : IoReader σ)

/-- Go's `PeekReader(r)` on a reader that is not yet a `PeekableReader`. -/
def new (r : σ) : PeekableReader σ := ⟨r, []⟩

/-- Go's `Peek(n)`: the buffer's first `n` bytes if it holds them; otherwise top it up by reading
into `B[i:]` until it holds `n` bytes or a read fails, keep what arrived, and return all of it. -/
def peek (n : Nat) (pr : PeekableReader σ) : Got × PeekableReader σ :=
  if n ≤ pr.b.length then (⟨pr.b.take n, none⟩, pr)
  else
    let g := src.fillLoop n (n - pr.b.length + 1) pr.b pr.r
    (g.1, ⟨g.2, g.1.bytes⟩)

/-- Go's `Read(p)` with `len(p) = n`. -/
def read (n : Nat) (pr : PeekableReader σ) : Got × PeekableReader σ :=
  if n ≤ pr.b.length then (⟨pr.b.take n, none⟩, { pr with b := pr.b.drop n })
  else
    let g := src.read (n - pr.b.length) pr.r
    (⟨pr.b ++ g.1.bytes, g.1.err⟩, ⟨g.2, []⟩)

/-- The peekable reader as an `io.Reader`. -/
def reader : IoReader (PeekableReader σ) := ⟨read src⟩

/-- The bytes still to come out: the buffer, then what the reader holds. -/
def pending (view : σ → List UInt8) (pr : PeekableReader σ) : List UInt8 := pr.b ++ view pr.r

variable {τ : Type}

/-- The copy loop of Go's `WriteTo(w)`: read a chunk, write it; stop on the writer's error, on a
short write (keeping in `B` what `w` did not take), or on the reader's error, `io.EOF` ending
cleanly. -/
def copyLoop (w : IoWriter τ) :
    Nat → Int → PeekableReader σ → τ → (Int × Option GoErr) × PeekableReader σ × τ
  | 0, n, pr, t => ((n, none), pr, t)
  | fuel + 1, n, pr, t =>
    let g := src.read chunkSize pr.r
    let pr : PeekableReader σ := { pr with r := g.2 }
    if g.1.bytes = [] then
      if g.1.err = none then copyLoop w fuel n pr t else ((n, readStop g.1.err), pr, t)
    else
      let o := w.write g.1.bytes t
      if o.1.err ≠ none then ((n + o.1.n, o.1.err), pr, o.2)
      else if (g.1.bytes.length : Int) ≠ o.1.n then
        ((n + o.1.n, some .shortWrite), { pr with b := g.1.bytes.drop o.1.n.toNat }, o.2)
      else if g.1.err = none then copyLoop w fuel (n + o.1.n) pr o.2
      else ((n + o.1.n, readStop g.1.err), pr, o.2)

/-- Go's `WriteTo(w)`, with `fuel` rounds for the copy loop: write the buffer first; then hand the
rest to the reader's own `WriteTo` when `R` is an `io.WriterTo` (`wt`), else to `w`'s `ReadFrom`
when `w` is an `io.ReaderFrom` (`rf`), else copy. -/
def writeTo (w : IoWriter τ) (wt rf : Option (σ → τ → (Int × Option GoErr) × σ × τ)) (fuel : Nat)
    (pr : PeekableReader σ) (t : τ) : (Int × Option GoErr) × PeekableReader σ × τ :=
  let first : Except ((Int × Option GoErr) × PeekableReader σ × τ) (Int × PeekableReader σ × τ) :=
    if pr.b = [] then .ok (0, pr, t)
    else
      let o := w.write pr.b t
      let pr := { pr with b := pr.b.drop o.1.n.toNat }
      if o.1.err ≠ none then .error ((o.1.n, o.1.err), pr, o.2)
      else if pr.b ≠ [] then .error ((o.1.n, some .shortWrite), pr, o.2)
      else .ok (o.1.n, pr, o.2)
  match first, wt, rf with
  | .error res, _, _ => res
  | .ok (_, pr, t), some wt, _ => let o := wt pr.r t; (o.1, { pr with r := o.2.1 }, o.2.2)
  | .ok (_, pr, t), none, some rf => let o := rf pr.r t; (o.1, { pr with r := o.2.1 }, o.2.2)
  | .ok (n, pr, t), none, none => copyLoop src w fuel n pr t

/-- **WriteTo loses bytes and counts.** After `Peek(2)` over a `BytesReader` of `[1, 2, 3]`,
`WriteTo` a sink writes the buffer `[1, 2]`, then returns the `BytesReader`'s own `WriteTo`,
`(1, nil)`: the sink holds three bytes. Over a plain reader of `[1, 2, 3]` and a writer that
takes one byte and fails, the copy loop returns `(1, err)` and keeps nothing: the next `Read`
reports `io.EOF`, and `[2, 3]` are gone. -/
theorem writeTo_loses_bytes :
    (((new (BytesReader.new [1, 2, 3])).peek BytesReader.reader 2).2.writeTo BytesReader.reader
        Sink.writer (some fun r t => r.writeTo Sink.writer t) none 1 (Sink.accepting [])).1 =
      (1, none) ∧
    (((new (BytesReader.new [1, 2, 3])).peek BytesReader.reader 2).2.writeTo BytesReader.reader
        Sink.writer (some fun r t => r.writeTo Sink.writer t) none 1 (Sink.accepting [])).2.2 =
      Sink.accepting [1, 2, 3] ∧
    ((new (Source.ofList [1, 2, 3])).writeTo Source.reader Sink.writer none none 2
        ⟨[], [⟨1, none, some 9⟩]⟩).1 = (1, some (.other 9)) ∧
    ((new (Source.ofList [1, 2, 3])).writeTo Source.reader Sink.writer none none 2
        ⟨[], [⟨1, none, some 9⟩]⟩).2.2.out = [1] ∧
    (((new (Source.ofList [1, 2, 3])).writeTo Source.reader Sink.writer none none 2
        ⟨[], [⟨1, none, some 9⟩]⟩).2.1.read Source.reader 5).1 = ⟨[], some .eof⟩ := by
  decide

section Spec

variable {src} {view : σ → List UInt8}

@[simp] theorem reader_read (n : Nat) (pr : PeekableReader σ) :
    (reader src).read n pr = pr.read src n := rfl

@[simp] theorem pending_new (r : σ) : pending view (new r) = view r := rfl

theorem read_of_le {n : Nat} {pr : PeekableReader σ} (h : n ≤ pr.b.length) :
    pr.read src n = (⟨pr.b.take n, none⟩, { pr with b := pr.b.drop n }) := if_pos h

theorem read_of_lt {n : Nat} {pr : PeekableReader σ} (h : pr.b.length < n) :
    pr.read src n = (⟨pr.b ++ (src.read (n - pr.b.length) pr.r).1.bytes,
      (src.read (n - pr.b.length) pr.r).1.err⟩, ⟨(src.read (n - pr.b.length) pr.r).2, []⟩) :=
  if_neg (by omega)

/-- **Spec of Peek.** Over a reader that only ever ends, `Peek(n)` returns the next `n` pending
bytes, or all of them, and leaves the pending bytes as they were. -/
theorem peek_spec (h : src.Delivers view) (hc : src.Clean) (n : Nat) (pr : PeekableReader σ) :
    (pr.peek src n).1.bytes = (pending view pr).take n ∧
      pending view (pr.peek src n).2 = pending view pr := by
  unfold peek pending
  split
  · rename_i hle
    exact ⟨by rw [List.take_append_of_le_length hle], rfl⟩
  · rename_i hlt
    obtain ⟨hb, hv, -⟩ := h.fillLoop_clean hc
      (show n < pr.b.length + (n - pr.b.length + 1) by omega) (by omega) pr.r
    refine ⟨?_, ?_⟩
    · rw [hb, List.take_append_eq_append_take,
        List.take_of_length_le (show pr.b.length ≤ n by omega)]
    · dsimp only; rw [hv, hb, List.append_assoc, List.take_append_drop]

/-- **A peekable reader delivers its pending bytes** in order, over any reader that does. -/
theorem delivers (h : src.Delivers view) : (reader src).Delivers (pending view) where
  append n pr := by
    simp only [reader_read, pending]
    by_cases hn : n ≤ pr.b.length
    · rw [read_of_le hn, ← List.append_assoc, List.take_append_drop]
    · rw [read_of_lt (by omega)]
      simp only [List.nil_append, List.append_assoc, h.append]
  length_le n pr := by
    simp only [reader_read]
    by_cases hn : n ≤ pr.b.length
    · simp only [read_of_le hn, List.length_take]; omega
    · rw [read_of_lt (by omega)]
      have := h.length_le (n - pr.b.length) pr.r
      simp only [List.length_append]; omega
  progress n pr hn hb := by
    simp only [reader_read] at hb ⊢
    by_cases hle : n ≤ pr.b.length
    · rw [read_of_le hle, List.take_eq_nil_iff] at hb
      rcases hb with hb | hb
      · omega
      · simp [hb] at hle; omega
    · rw [read_of_lt (by omega)] at hb ⊢
      obtain ⟨hb0, hg⟩ := List.append_eq_nil.mp hb
      have : pr.b.length = 0 := by simp [hb0]
      exact h.progress _ _ (by omega) hg
  eof_at_end n pr he := by
    simp only [reader_read] at he ⊢
    by_cases hle : n ≤ pr.b.length
    · rw [read_of_le hle] at he; cases he
    · rw [read_of_lt (by omega)] at he ⊢
      simp [pending, h.eof_at_end _ _ he]

/-- A peekable reader over a reader that only ever ends only ever ends. -/
theorem clean (hc : src.Clean) : (reader src).Clean := by
  intro n pr
  simp only [reader_read]
  by_cases hle : n ≤ pr.b.length
  · simp [read_of_le hle]
  · rw [read_of_lt (by omega)]; exact hc _ _

/-- **The copy loop into a sink that accepts everything is the drain loop** of the reader beneath:
the sink receives what the drain loop collects, and the copy reports its count and error. -/
theorem copyLoop_accepting (src : IoReader σ) :
    ∀ fuel (n : Int) (pr : PeekableReader σ) out,
      copyLoop src Sink.writer fuel n pr (Sink.accepting out) =
        ((n + (src.drain chunkSize fuel [] pr.r).1.bytes.length, (src.drain chunkSize fuel [] pr.r).1.err),
          { pr with r := (src.drain chunkSize fuel [] pr.r).2 },
          Sink.accepting (out ++ (src.drain chunkSize fuel [] pr.r).1.bytes))
  | 0, n, pr, out => by simp [copyLoop, IoReader.drain]
  | fuel + 1, n, pr, out => by
    rw [IoReader.drain, IoReader.drain_acc src chunkSize fuel]
    by_cases hb : (src.read chunkSize pr.r).1.bytes = []
    · by_cases he : (src.read chunkSize pr.r).1.err = none
      · simp [copyLoop, hb, he, copyLoop_accepting src fuel n]
      · simp [copyLoop, hb, he]
    · by_cases he : (src.read chunkSize pr.r).1.err = none
      · simp [copyLoop, hb, he, copyLoop_accepting src fuel, add_assoc]
      · simp [copyLoop, hb, he]

/-- **WriteTo's copy path into a sink that accepts everything hands over every pending byte.**
Over a reader that only ever ends, in any chunking, and whatever earlier `Peek`s and `Read`s left
in the buffer, `WriteTo` into a writer that takes everything, when the reader is not an
`io.WriterTo` and the writer not an `io.ReaderFrom`, writes the buffer and then all the reader
holds, and reports their count with no error; it leaves the buffer empty and the reader at its
end. -/
theorem writeTo_copies_pending (h : src.Delivers view) (hc : src.Clean) (pr : PeekableReader σ)
    (out : List UInt8) {fuel : Nat} (hf : (view pr.r).length < fuel) :
    ∃ r', view r' = [] ∧
      writeTo src Sink.writer none none fuel pr (Sink.accepting out) =
        ((((pending view pr).length : Int), none), ⟨r', []⟩, Sink.accepting (out ++ pending view pr)) := by
  obtain ⟨hd, hv⟩ := h.drain_clean hc (by decide : 0 < chunkSize) [] pr.r hf
  refine ⟨_, hv, ?_⟩
  obtain ⟨r, b⟩ := pr
  by_cases hb : b = []
  · subst hb
    simp [writeTo, copyLoop_accepting, hd, pending]
  · simp [writeTo, hb, copyLoop_accepting, hd, pending]

/-- After `Peek(2)` over a byte slice of `[1, 2, 3]`, the copy path writes all three bytes. -/
theorem writeTo_copies_pending_bytes :
    ∃ r', BytesReader.Valid.rest r' = [] ∧
      writeTo BytesReader.Valid.reader Sink.writer none none 2
          ((new (BytesReader.Valid.new [1, 2, 3])).peek BytesReader.Valid.reader 2).2 (Sink.accepting []) =
        ((3, none), ⟨r', []⟩, Sink.accepting [1, 2, 3]) :=
  writeTo_copies_pending BytesReader.Valid.delivers BytesReader.Valid.clean _ [] (by decide)

end Spec

end PeekableReader

/-! ## Runs of calls and the transparent stream -/

/-- A call on a peekable reader: `Peek(k)` or `Read(p)` with `len(p) = n`. -/
inductive PeekOp where
  | peek (k : Nat)
  | read (n : Nat)
  deriving DecidableEq, Repr

/-- Run calls one after another, collecting what each returns. -/
def PeekOp.run (src : IoReader σ) : List PeekOp → PeekableReader σ → List Got × PeekableReader σ
  | [], pr => ([], pr)
  | .peek k :: ops, pr =>
    let o := pr.peek src k
    let rest := run src ops o.2
    (o.1 :: rest.1, rest.2)
  | .read n :: ops, pr =>
    let o := pr.read src n
    let rest := run src ops o.2
    (o.1 :: rest.1, rest.2)

/-- The bytes the `Read`s among the calls returned, in order. -/
def readBytes : List PeekOp → List Got → List UInt8
  | .read _ :: ops, g :: outs => g.bytes ++ readBytes ops outs
  | .peek _ :: ops, _ :: outs => readBytes ops outs
  | _, _ => []

/-- Some `Read` among the calls returned `io.EOF`. -/
def readEOF : List PeekOp → List Got → Bool
  | .read _ :: ops, g :: outs => g.err == some .eof || readEOF ops outs
  | .peek _ :: ops, _ :: outs => readEOF ops outs
  | _, _ => false

/-- A `Read` that asks for at least one byte. -/
def PeekOp.asks : PeekOp → Bool
  | .read n => 0 < n
  | .peek _ => false

/-- **The transparent lookahead stream**, the abstract model of a peekable reader: from the
bytes `s`, the calls `ops` may answer `outs` and leave `s'`. A `Peek(k)` sees the next `k` bytes
and consumes nothing; a `Read` of `n` consumes a prefix of at most `n` bytes, at least one when
`n > 0` and anything is left, and reports `io.EOF` (its only error) only once nothing is left. -/
inductive Transparent : List UInt8 → List PeekOp → List Got → List UInt8 → Prop
  | nil (s : List UInt8) : Transparent s [] [] s
  | peek {s s' : List UInt8} {k : Nat} {g : Got} {ops outs} :
      g.bytes = s.take k → Transparent s ops outs s' → Transparent s (.peek k :: ops) (g :: outs) s'
  | read {s rest s' : List UInt8} {n : Nat} {g : Got} {ops outs} :
      g.bytes ++ rest = s → g.bytes.length ≤ n → (0 < n → s ≠ [] → g.bytes ≠ []) →
      (g.err = none ∨ g.err = some .eof) → (g.err = some .eof → rest = []) →
      Transparent rest ops outs s' → Transparent s (.read n :: ops) (g :: outs) s'

namespace Transparent

/-- Nothing is lost, duplicated or reordered: the bytes read, then those left, are the stream. -/
theorem readBytes_append {s ops outs s'} (h : Transparent s ops outs s') :
    readBytes ops outs ++ s' = s := by
  induction h with
  | nil => rfl
  | peek _ _ ih => exact ih
  | read happ _ _ _ _ _ ih => rw [readBytes, List.append_assoc, ih, happ]

/-- From an empty stream nothing more is read. -/
theorem readBytes_nil {ops outs s'} (h : Transparent [] ops outs s') : readBytes ops outs = [] :=
  (List.append_eq_nil.mp h.readBytes_append).1

/-- Once a `Read` has reported `io.EOF`, the bytes read are the whole stream. -/
theorem readBytes_of_eof {s ops outs s'} (h : Transparent s ops outs s') (he : readEOF ops outs) :
    readBytes ops outs = s := by
  induction h with
  | nil => cases he
  | peek _ _ ih => exact ih he
  | read happ _ _ _ heof ht ih =>
    rw [readBytes, ← happ]
    simp only [readEOF, Bool.or_eq_true, beq_iff_eq] at he
    rcases he with he | he
    · have hr := heof he
      subst hr
      rw [ht.readBytes_nil]
    · rw [ih he]

/-- **Reads make progress.** The `Read`s that ask for a byte return, together, at least one byte
each until the stream runs out. -/
theorem min_le_readBytes_length {s ops outs s'} (h : Transparent s ops outs s') :
    min s.length (ops.countP PeekOp.asks) ≤ (readBytes ops outs).length := by
  induction h with
  | nil => simp
  | peek _ _ ih => simpa [PeekOp.asks, readBytes] using ih
  | @read _ rest _ n g _ _ happ hlen hprog _ _ _ ih =>
    subst happ
    rw [List.countP_cons, readBytes, List.length_append, List.length_append]
    by_cases hn : 0 < n
    · by_cases hg : g.bytes = []
      · have hs : g.bytes ++ rest = [] := by_contra fun hs => hprog hn hs hg
        simp [hg, (List.append_eq_nil.mp hs).2]
      · have := List.length_pos.mpr hg
        simp only [PeekOp.asks, hn, decide_True, if_true]; omega
    · simp only [PeekOp.asks, hn, decide_False, Bool.false_eq_true, if_false]; omega

end Transparent

section Refinement

variable {src : IoReader σ} {view : σ → List UInt8}

/-- **Refinement.** Over a reader that only ever ends, in any chunking, every run of `Peek`s and
`Read`s on a peekable reader is transparent over its pending bytes. -/
theorem run_transparent (h : src.Delivers view) (hc : src.Clean) :
    ∀ (ops : List PeekOp) (pr : PeekableReader σ),
      Transparent (PeekableReader.pending view pr) ops (PeekOp.run src ops pr).1
        (PeekableReader.pending view (PeekOp.run src ops pr).2)
  | [], pr => .nil _
  | .peek k :: ops, pr => by
    obtain ⟨hb, hp⟩ := PeekableReader.peek_spec h hc k pr
    have ih := run_transparent h hc ops (pr.peek src k).2
    rw [hp] at ih
    exact .peek hb ih
  | .read n :: ops, pr => by
    have hd := PeekableReader.delivers h
    exact .read (hd.append n pr) (hd.length_le n pr)
      (fun hn hs => hd.bytes_ne_nil (PeekableReader.clean hc) hn hs) (PeekableReader.clean hc n pr)
      (hd.eof_at_end n pr) (run_transparent h hc ops _)

/-- **PeekableReader is a transparent lookahead.** Over any reader that only ever ends, in any
chunking, and for any sequence of `Peek`s and `Read`s on a fresh `PeekReader`: the bytes of all
`Read`s followed by what is still pending are the stream (so they are a prefix of it), all of it
once a `Read` has reported `io.EOF`; each `Read` that asks for a byte gets at least one while any
is left, so the `Read`s deliver the stream a `Peek` shows; and each `Peek(k)` returns the next `k`
bytes or all that remain, consuming none of them. -/
theorem peekable_transparent (h : src.Delivers view) (hc : src.Clean) (s : σ)
    (ops : List PeekOp) :
    Transparent (view s) ops (PeekOp.run src ops (.new s)).1
        (PeekableReader.pending view (PeekOp.run src ops (.new s)).2) ∧
      readBytes ops (PeekOp.run src ops (.new s)).1 ++
          PeekableReader.pending view (PeekOp.run src ops (.new s)).2 = view s ∧
      (readEOF ops (PeekOp.run src ops (.new s)).1 →
        readBytes ops (PeekOp.run src ops (.new s)).1 = view s) ∧
      min (view s).length (ops.countP PeekOp.asks) ≤
        (readBytes ops (PeekOp.run src ops (.new s)).1).length := by
  have ht := run_transparent h hc ops (.new s)
  rw [PeekableReader.pending_new] at ht
  exact ⟨ht, ht.readBytes_append, ht.readBytes_of_eof, ht.min_le_readBytes_length⟩

/-- The byte-slice reader meets the hypotheses: peeking two bytes of three, then reading one,
five and one, reads all three and reports `io.EOF`. -/
theorem peekable_transparent_bytes :
    BytesReader.Valid.reader.Delivers BytesReader.Valid.rest ∧ BytesReader.Valid.reader.Clean ∧
      readBytes [.peek 2, .read 1, .read 5, .read 1]
        (PeekOp.run BytesReader.Valid.reader [.peek 2, .read 1, .read 5, .read 1]
          (.new (BytesReader.Valid.new [1, 2, 3]))).1 = [1, 2, 3] :=
  ⟨BytesReader.Valid.delivers, BytesReader.Valid.clean,
    (peekable_transparent BytesReader.Valid.delivers BytesReader.Valid.clean
      (BytesReader.Valid.new [1, 2, 3]) [.peek 2, .read 1, .read 5, .read 1]).2.2.1 (by decide)⟩

end Refinement

end Codec
