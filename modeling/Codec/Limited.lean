import Codec.Typed.Reader
import Codec.Bytes

/-!
# The codec's `LimitedReader` (`reader_limit.go`)

`LimitReader(r, n)` wraps an `io.LimitedReader` and adds `WriteTo`, so that `io.Copy` from it runs
the codec's own loop: a writer that is an `io.ReaderFrom` is handed the inner `io.LimitedReader`,
and any other gets the bytes through a pooled buffer of `CHUNK_SIZE` bytes.

That loop is the one `io.Copy` runs with a buffer of the same size (`writeToLoop_eq_copyLoop`), as
long as the writer reports a count `io.Writer` allows. Into a sink that accepts everything it copies exactly the first `N`
bytes (`writeTo_copies_prefix`).
-/

namespace Codec

namespace LimitedReader

variable {σ τ : Type}

/-- The fallback loop of Go's `LimitedReader.WriteTo(w)`, with `fuel` rounds: read a chunk through
the limit, write what arrived and add the count the writer reports, and stop at a write error, a
short write or a read error, `io.EOF` ending cleanly. -/
def writeToLoop (r : IoReader σ) (w : IoWriter τ) :
    Nat → Int → σ × Int → τ → (Int × Option GoErr) × (σ × Int) × τ
  | 0, n, st, t => ((n, none), st, t)
  | fuel + 1, n, st, t =>
    let g := r.limit.read chunkSize st
    if g.1.bytes = [] then
      if g.1.err = none then writeToLoop r w fuel n g.2 t else ((n, readStop g.1.err), g.2, t)
    else
      let o := w.write g.1.bytes t
      if o.1.err ≠ none then ((n + o.1.n, o.1.err), g.2, o.2)
      else if (g.1.bytes.length : Int) ≠ o.1.n then ((n + o.1.n, some .shortWrite), g.2, o.2)
      else if g.1.err = none then writeToLoop r w fuel (n + o.1.n) g.2 o.2
      else ((n + o.1.n, readStop g.1.err), g.2, o.2)

/-- Go's `LimitedReader.WriteTo(w)` over the state of the inner `io.LimitedReader`: `rf` is the
writer's `ReadFrom` when it is an `io.ReaderFrom`, which is then handed the inner reader; any other
writer gets the fallback loop. -/
def writeTo (r : IoReader σ) (w : IoWriter τ) (rf : Option (IoReaderFrom τ)) (fuel : Nat)
    (st : σ × Int) (t : τ) : (Int × Option GoErr) × (σ × Int) × τ :=
  match rf with
  | some rf => let o := rf.readFrom r.limit fuel t st; (o.1, o.2.2, o.2.1)
  | none => writeToLoop r w fuel 0 st t

/-- A sink with no plan left takes every write in full and keeps no plan. -/
theorem accepting_write (p : List UInt8) (t : Sink) (ht : t.plan = []) :
    0 ≤ (Sink.writer.write p t).1.n ∧ (Sink.writer.write p t).1.n ≤ p.length ∧
      (Sink.writer.write p t).2.plan = [] := by
  obtain ⟨out, rfl⟩ : ∃ out, t = Sink.accepting out := ⟨t.out, by cases t; simp_all [Sink.accepting]⟩
  simp [Sink.accepting, Sink.write, Int.ofNat_nonneg]

/-- **The loop is `io.Copy`'s.** For a writer that, on the states `ok` picks out, reports a count
between zero and what it was given and stays in such a state, the fallback loop of `WriteTo` does
what `io.Copy`'s loop does through the same limit with a buffer of the same size. -/
theorem writeToLoop_eq_copyLoop (r : IoReader σ) {w : IoWriter τ} {ok : τ → Prop}
    (hw : ∀ p t, ok t → 0 ≤ (w.write p t).1.n ∧ (w.write p t).1.n ≤ p.length ∧ ok (w.write p t).2) :
    ∀ fuel (n : Nat) st t, ok t →
      writeToLoop r w fuel n st t =
        ((((r.limit.copyLoop w chunkSize fuel n st t).1.1 : Int),
          (r.limit.copyLoop w chunkSize fuel n st t).1.2), (r.limit.copyLoop w chunkSize fuel n st t).2)
  | 0, n, st, t, _ => rfl
  | fuel + 1, n, st, t, ht => by
    simp only [writeToLoop, IoReader.copyLoop]
    by_cases hb : (r.limit.read chunkSize st).1.bytes = []
    · by_cases he : (r.limit.read chunkSize st).1.err = none
      · simp only [hb, he, if_true, ne_eq, not_true_eq_false]
        exact writeToLoop_eq_copyLoop r hw fuel n _ t ht
      · simp [hb, he]
    · simp only [hb, if_false]
      obtain ⟨h0, hle, hok⟩ := hw (r.limit.read chunkSize st).1.bytes t ht
      generalize r.limit.read chunkSize st = g at *
      generalize w.write g.1.bytes t = o at *
      have hcast : ((n + o.1.n.toNat : Nat) : Int) = n + o.1.n := by omega
      have hvalid : ¬(o.1.n < 0 ∨ (g.1.bytes.length : Int) < o.1.n) := by omega
      rw [if_neg hvalid]
      by_cases hwe : o.1.err = none
      · by_cases hn : (g.1.bytes.length : Int) = o.1.n
        · by_cases he : g.1.err = none
          · simp only [hwe, hn, he, ne_eq, not_true_eq_false, if_false, if_true]
            rw [← hcast, writeToLoop_eq_copyLoop r hw fuel _ _ _ hok]
          · simp [hwe, hn, he, hcast]
        · simp [hwe, hn, Ne.symm hn, hcast]
      · simp [hwe, hcast]

/-- A byte copied, over a `*BytesReader` limited to one byte, into a sink that accepts it. -/
theorem writeToLoop_eq_copyLoop_bytes :
    writeToLoop BytesReader.reader Sink.writer 2 0 (BytesReader.new [7, 8], 1) (Sink.accepting []) =
      ((((BytesReader.reader.limit.copyLoop Sink.writer chunkSize 2 0 (BytesReader.new [7, 8], 1)
          (Sink.accepting [])).1.1 : Int),
        (BytesReader.reader.limit.copyLoop Sink.writer chunkSize 2 0 (BytesReader.new [7, 8], 1)
          (Sink.accepting [])).1.2),
        (BytesReader.reader.limit.copyLoop Sink.writer chunkSize 2 0 (BytesReader.new [7, 8], 1)
          (Sink.accepting [])).2) :=
  writeToLoop_eq_copyLoop BytesReader.reader accepting_write 2 0 _ _ rfl

/-- Into a sink that accepts everything, the fallback loop is the drain loop through the limit:
the sink receives what the drain collects, and the loop reports its count and error. -/
theorem writeToLoop_accepting (r : IoReader σ) :
    ∀ fuel (n : Int) st out, writeToLoop r Sink.writer fuel n st (Sink.accepting out) =
      ((n + (r.limit.drain chunkSize fuel [] st).1.bytes.length, (r.limit.drain chunkSize fuel [] st).1.err),
        (r.limit.drain chunkSize fuel [] st).2, Sink.accepting (out ++ (r.limit.drain chunkSize fuel [] st).1.bytes))
  | 0, n, st, out => by simp [writeToLoop, IoReader.drain]
  | fuel + 1, n, st, out => by
    rw [IoReader.drain, IoReader.drain_acc r.limit chunkSize fuel]
    by_cases hb : (r.limit.read chunkSize st).1.bytes = []
    · by_cases he : (r.limit.read chunkSize st).1.err = none
      · simp [writeToLoop, hb, he, writeToLoop_accepting r fuel n]
      · simp [writeToLoop, hb, he]
    · by_cases he : (r.limit.read chunkSize st).1.err = none
      · have ih := writeToLoop_accepting r fuel (n + (r.limit.read chunkSize st).1.bytes.length)
          (r.limit.read chunkSize st).2 (out ++ (r.limit.read chunkSize st).1.bytes)
        simp only [Sink.accepting] at ih
        simp [writeToLoop, hb, he, Sink.accepting, Sink.write, ih, add_assoc]
      · simp [writeToLoop, hb, he, Sink.accepting, Sink.write]

/-- **Into a sink that accepts everything, `WriteTo` copies exactly the first `N` bytes** of a
reader that only ever ends: it reports their count and no error, the sink receives them, the
reader is left just past them and `N` goes down by their count. -/
theorem writeTo_copies_prefix {r : IoReader σ} {view : σ → List UInt8} (h : r.Delivers view) (hc : r.Clean)
    (N : Int) (s : σ) (out : List UInt8) {fuel : Nat} (hf : (view s).length < fuel) :
    ∃ s', view s' = (view s).drop N.toNat ∧
      writeTo r Sink.writer none fuel (s, N) (Sink.accepting out) =
        (((((view s).take N.toNat).length : Int), none), (s', N - ((view s).take N.toNat).length),
          Sink.accepting (out ++ (view s).take N.toNat)) := by
  obtain ⟨s', hv, hd⟩ := h.limit_drain hc (by decide : 0 < chunkSize) N s
    (lt_of_le_of_lt (List.length_take_le' _ _) hf)
  exact ⟨s', hv, by simp only [writeTo, writeToLoop_accepting, hd, zero_add]⟩

/-- Two of three bytes copied out of a `*BytesReader` into an empty sink. -/
theorem writeTo_copies_prefix_bytes :
    ∃ s', BytesReader.Valid.rest s' = [9] ∧
      writeTo BytesReader.Valid.reader Sink.writer none 4 (BytesReader.Valid.new [7, 8, 9], 2)
          (Sink.accepting []) = ((2, none), (s', 0), Sink.accepting [7, 8]) :=
  writeTo_copies_prefix BytesReader.Valid.delivers BytesReader.Valid.clean 2 (BytesReader.Valid.new [7, 8, 9]) []
    (show [7, 8, 9].length < 4 by decide)

end LimitedReader

end Codec
