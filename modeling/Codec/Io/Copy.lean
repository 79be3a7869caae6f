import Codec.Io.Stream

/-!
# The `io` helpers the codec calls: `LimitedReader`, `ReadFull`, `Copy`, `CopyN`

Each is translated from the Go standard library as the codec uses it, with its loop as a
function over explicit fuel. A loop of the library runs until its reader reports an error or
hands over the bytes it wants, and against a reader meeting `IoReader.Delivers` every round but
the last hands over a byte; so the fuel each caller passes (one more than the bytes it wants) is
never used up, and the spec lemmas below say so.

* `IoReader.limit` — `io.LimitedReader`; it meets the contract over the first `N` bytes.
* `IoReader.readFull` — `io.ReadFull`: the next `n` bytes, `io.EOF` when none were there and
  `io.ErrUnexpectedEOF` when only some were (`readFull_spec`, `readFull_clean`).
* `IoReader.discardFrom` — `io.Discard.ReadFrom`, and `copyLoop`, the loop of `io.Copy`.
* `IoReader.copyN` — `io.CopyN` with the copy step of its destination.
-/

namespace Codec

variable {σ τ : Type}

/-! ## io.LimitedReader -/

/-- Go's `io.LimitedReader`: reads from the inner reader at most `N` bytes in all. -/
def IoReader.limit (r : IoReader σ) : IoReader (σ × Int) where
  read n st :=
    if st.2 ≤ 0 then (⟨[], some .eof⟩, st)
    else
      let g := r.read (min n st.2.toNat) st.1
      (g.1, (g.2, st.2 - g.1.bytes.length))

section Limit

variable {r : IoReader σ} {view : σ → List UInt8}

theorem IoReader.limit_of_nonpos {n : Nat} {st : σ × Int} (h : st.2 ≤ 0) :
    r.limit.read n st = (⟨[], some .eof⟩, st) := by
  simp [IoReader.limit, h]

theorem IoReader.limit_of_pos {n : Nat} {st : σ × Int} (h : 0 < st.2) :
    r.limit.read n st = ((r.read (min n st.2.toNat) st.1).1,
      ((r.read (min n st.2.toNat) st.1).2,
        st.2 - (r.read (min n st.2.toNat) st.1).1.bytes.length)) := by
  simp only [IoReader.limit, if_neg (not_le.mpr h)]

/-- The view of a limited reader: the first `N` bytes of the inner view. -/
def limitView (view : σ → List UInt8) (st : σ × Int) : List UInt8 := (view st.1).take st.2.toNat

/-- **A limited reader meets the contract over the first `N` bytes of its reader.** -/
theorem IoReader.Delivers.limit (h : r.Delivers view) : r.limit.Delivers (limitView view) where
  append n st := by
    rcases le_or_lt st.2 0 with hN | hN
    · simp [IoReader.limit_of_nonpos hN, limitView, (by omega : st.2.toNat = 0)]
    · obtain ⟨k, hkn, hkv, hb, hv⟩ := h.read_spec (min n st.2.toNat) st.1
      rw [IoReader.limit_of_pos hN]
      simp only [limitView, hb, hv, List.length_take, Nat.min_eq_left hkv, ← List.take_add]
      congr 1; omega
  length_le n st := by
    rcases le_or_lt st.2 0 with hN | hN
    · simp [IoReader.limit_of_nonpos hN]
    · rw [IoReader.limit_of_pos hN]
      exact (h.length_le _ _).trans (Nat.min_le_left _ _)
  progress n st hn hb := by
    rcases le_or_lt st.2 0 with hN | hN
    · simp [IoReader.limit_of_nonpos hN]
    · rw [IoReader.limit_of_pos hN] at hb ⊢
      exact h.progress _ _ (by omega) hb
  eof_at_end n st he := by
    rcases le_or_lt st.2 0 with hN | hN
    · simp [IoReader.limit_of_nonpos hN, limitView, (by omega : st.2.toNat = 0)]
    · rw [IoReader.limit_of_pos hN] at he ⊢
      simp [limitView, h.eof_at_end _ _ he]

theorem IoReader.limit_clean (hc : r.Clean) : r.limit.Clean := by
  intro n st
  rcases le_or_lt st.2 0 with hN | hN
  · simp [IoReader.limit_of_nonpos hN]
  · rw [IoReader.limit_of_pos hN]; exact hc _ _

end Limit

/-! ## io.ReadFull -/

/-- The loop of `io.ReadAtLeast`: read into `buf[n:]` while fewer than `want` bytes have arrived
and no error has. -/
def IoReader.fillLoop (r : IoReader σ) (want : Nat) : Nat → List UInt8 → σ → Got × σ
  | 0, acc, s => (⟨acc, none⟩, s)
  | fuel + 1, acc, s =>
    if acc.length < want then
      let g := r.read (want - acc.length) s
      if g.1.err = none then r.fillLoop want fuel (acc ++ g.1.bytes) g.2
      else (⟨acc ++ g.1.bytes, g.1.err⟩, g.2)
    else (⟨acc, none⟩, s)

/-- Go's `io.ReadFull(r, buf)` with `len(buf) = n`. -/
def IoReader.readFull (r : IoReader σ) (n : Nat) (s : σ) : Got × σ :=
  let g := r.fillLoop n (n + 1) [] s
  (⟨g.1.bytes, if n ≤ g.1.bytes.length then none
    else if g.1.bytes ≠ [] ∧ g.1.err = some .eof then some .unexpectedEOF else g.1.err⟩, g.2)

section ReadFull

variable {r : IoReader σ} {view : σ → List UInt8}

/-- What the fill loop hands back: the bytes it already had followed by the next `k` bytes of the
reader, at most `want` in all and exactly `want` unless an error stopped it. An error it returns
is one a read returned, and `io.EOF` leaves nothing behind. -/
theorem IoReader.Delivers.fillLoop_spec (h : r.Delivers view) (want : Nat) :
    ∀ fuel acc s, want < acc.length + fuel → acc.length ≤ want →
      ∃ k ≤ (view s).length, (r.fillLoop want fuel acc s).1.bytes = acc ++ (view s).take k ∧
        view (r.fillLoop want fuel acc s).2 = (view s).drop k ∧ acc.length + k ≤ want ∧
        ((r.fillLoop want fuel acc s).1.err = none → acc.length + k = want) ∧
        ((r.fillLoop want fuel acc s).1.err = none ∨
          ∃ n s', (r.fillLoop want fuel acc s).1.err = (r.read n s').1.err) ∧
        ((r.fillLoop want fuel acc s).1.err = some .eof → view (r.fillLoop want fuel acc s).2 = [])
  | 0, acc, s, hf, _ => by omega
  | fuel + 1, acc, s, hf, ha => by
    simp only [IoReader.fillLoop]
    split
    · rename_i hlt
      obtain ⟨j, hjn, hjv, hb, hv⟩ := h.read_spec (want - acc.length) s
      have hlen : (r.read (want - acc.length) s).1.bytes.length = j := by
        rw [hb, List.length_take]; omega
      split
      · rename_i he
        have hpos : 0 < j := by
          by_cases hb0 : (r.read (want - acc.length) s).1.bytes = []
          · exact absurd he (h.progress _ s (by omega) hb0)
          · exact hlen ▸ List.length_pos.mpr hb0
        obtain ⟨k, hkv, hb', hv', hk', hn, hor, heof⟩ := h.fillLoop_spec want fuel
          (acc ++ (r.read (want - acc.length) s).1.bytes) (r.read (want - acc.length) s).2
          (by simp only [List.length_append]; omega) (by simp only [List.length_append]; omega)
        simp only [List.length_append, hlen, hv, List.length_drop] at hk' hn hkv
        refine ⟨j + k, by omega, ?_, ?_, by omega, fun hnone => by have := hn hnone; omega, hor,
          heof⟩
        · rw [hb', hv, hb, List.append_assoc, List.take_add]
        · rw [hv', hv, List.drop_drop]
      · rename_i he
        refine ⟨j, hjv, by rw [hb], hv, by omega, fun hn => absurd hn he, .inr ⟨_, _, rfl⟩,
          h.eof_at_end _ _⟩
    · exact ⟨0, by omega, by simp, by simp, by omega, fun _ => by omega, .inl rfl, by simp⟩

/-- **Spec of io.ReadFull.** It hands over the next `k ≤ n` bytes of the reader and succeeds
exactly when `k = n`. -/
theorem IoReader.Delivers.readFull_spec (h : r.Delivers view) (n : Nat) (s : σ) :
    ∃ k ≤ n, k ≤ (view s).length ∧ (r.readFull n s).1.bytes = (view s).take k ∧
      view (r.readFull n s).2 = (view s).drop k ∧ ((r.readFull n s).1.err = none ↔ k = n) := by
  obtain ⟨k, hkv, hb, hv, hk, hn, -, -⟩ := h.fillLoop_spec n (n + 1) [] s (by simp) (by simp)
  simp only [List.nil_append, List.length_nil, Nat.zero_add] at hb hk hn
  have hlen : (r.fillLoop n (n + 1) [] s).1.bytes.length = k := by
    rw [hb, List.length_take]; omega
  refine ⟨k, hk, hkv, hb, hv, ?_⟩
  simp only [IoReader.readFull, hlen]
  constructor
  · intro he
    split at he
    · omega
    · split at he
      · simp at he
      · exact hn he
  · rintro rfl
    simp

/-- **The fill loop on a reader that only ever ends** tops `acc` up with the next
`want - |acc|` bytes, or with all that is left. Its only error is `io.EOF`, and it succeeds only
when the bytes were there. -/
theorem IoReader.Delivers.fillLoop_clean (h : r.Delivers view) (hc : r.Clean) {want fuel : Nat}
    {acc : List UInt8} (hf : want < acc.length + fuel) (ha : acc.length ≤ want) (s : σ) :
    (r.fillLoop want fuel acc s).1.bytes = acc ++ (view s).take (want - acc.length) ∧
      view (r.fillLoop want fuel acc s).2 = (view s).drop (want - acc.length) ∧
      ((r.fillLoop want fuel acc s).1.err = none ∨ (r.fillLoop want fuel acc s).1.err = some .eof) ∧
      ((r.fillLoop want fuel acc s).1.err = none → want - acc.length ≤ (view s).length) := by
  obtain ⟨k, hkv, hb, hv, hk, hn, hor, heof⟩ := h.fillLoop_spec want fuel acc s hf ha
  have herr : (r.fillLoop want fuel acc s).1.err = none ∨
      (r.fillLoop want fuel acc s).1.err = some .eof := by
    rcases hor with hor | ⟨m, s', hor⟩
    · exact .inl hor
    · rw [hor]; exact hc m s'
  -- the loop stops with `want` bytes, or at `io.EOF` with nothing left
  have hk' : k = min (want - acc.length) (view s).length := by
    rcases herr with he | he
    · have := hn he; omega
    · have := heof he; rw [hv, List.drop_eq_nil_iff] at this; omega
  refine ⟨?_, ?_, herr, fun he => by have := hn he; omega⟩ <;>
    rcases le_total (want - acc.length) (view s).length with hle | hle
  · rw [hb, hk', Nat.min_eq_left hle]
  · rw [hb, hk', Nat.min_eq_right hle, List.take_length, List.take_of_length_le hle]
  · rw [hv, hk', Nat.min_eq_left hle]
  · rw [hv, hk', Nat.min_eq_right hle, List.drop_length, List.drop_eq_nil_of_le hle]

/-- **io.ReadFull on a reader that only ever ends.** It hands over the next `n` bytes when they
are there; otherwise all that is left, with `io.EOF` if that is nothing and
`io.ErrUnexpectedEOF` if it is something. -/
theorem IoReader.Delivers.readFull_clean (h : r.Delivers view) (hc : r.Clean) (n : Nat) (s : σ) :
    (r.readFull n s).1 = ⟨(view s).take n, if n ≤ (view s).length then none
      else if view s = [] then some .eof else some .unexpectedEOF⟩ ∧
      view (r.readFull n s).2 = (view s).drop n := by
  obtain ⟨hb, hv, herr, hn⟩ :=
    h.fillLoop_clean hc (show n < ([] : List UInt8).length + (n + 1) by simp) (by simp) s
  simp only [List.nil_append, List.length_nil, Nat.sub_zero] at hb hv hn
  refine ⟨?_, hv⟩
  simp only [IoReader.readFull, hb, List.length_take]
  by_cases hle : n ≤ (view s).length
  · simp [hle]
  · -- the loop stopped short, so at `io.EOF`
    have he : (r.fillLoop n (n + 1) [] s).1.err = some .eof := herr.resolve_left (mt hn hle)
    by_cases hnil : view s = []
    · simp [hle, hnil, he]
    · simp [hle, hnil, he]; omega

end ReadFull

/-! ## io.Discard, io.Copy and io.CopyN -/

/-- What a copy loop reports once its reader returns `err`: `io.EOF` ends it cleanly. -/
def readStop (err : Option GoErr) : Option GoErr := if err = some .eof then none else err

/-- Read `size` bytes at a time until an error, `io.EOF` ending cleanly: the loop of
`io.Discard.ReadFrom` and of `io.ReadAll`. -/
def IoReader.drain (r : IoReader σ) (size : Nat) : Nat → List UInt8 → σ → Got × σ
  | 0, acc, s => (⟨acc, none⟩, s)
  | fuel + 1, acc, s =>
    let g := r.read size s
    if g.1.err = none then r.drain size fuel (acc ++ g.1.bytes) g.2
    else (⟨acc ++ g.1.bytes, readStop g.1.err⟩, g.2)

/-- Go's `io.Discard.ReadFrom`: drain the reader 8 KiB at a time, counting the bytes. -/
def IoReader.discardFrom (r : IoReader σ) (fuel : Nat) (s : σ) : (Nat × Option GoErr) × σ :=
  let g := r.drain 8192 fuel [] s
  ((g.1.bytes.length, g.1.err), g.2)

/-- Go's `io.ReadAll`: drain the reader, keeping the bytes. (Its buffer grows as Go's `append`
decides; the size of each read does not change what a reader meeting the contract hands over,
and the model asks for 512 bytes each time.) -/
def IoReader.readAll (r : IoReader σ) (fuel : Nat) (s : σ) : Got × σ := r.drain 512 fuel [] s

/-- The loop of Go's `io.copyBuffer` for a destination without `ReadFrom`: read up to `size`
bytes, write what arrived, stop at the first error, short write or end. -/
def IoReader.copyLoop (r : IoReader σ) (w : IoWriter τ) (size : Nat) :
    Nat → Nat → σ → τ → (Nat × Option GoErr) × σ × τ
  | 0, n, s, t => ((n, none), s, t)
  | fuel + 1, n, s, t =>
    let g := r.read size s
    if g.1.bytes = [] then
      if g.1.err = none then r.copyLoop w size fuel n g.2 t
      else ((n, readStop g.1.err), g.2, t)
    else
      let o := w.write g.1.bytes t
      if o.1.n < 0 ∨ g.1.bytes.length < o.1.n then
        ((n, some (o.1.err.getD .invalidWriteResult)), g.2, o.2)
      else if o.1.err ≠ none then ((n + o.1.n.toNat, o.1.err), g.2, o.2)
      else if o.1.n ≠ g.1.bytes.length then ((n + o.1.n.toNat, some .shortWrite), g.2, o.2)
      else if g.1.err = none then r.copyLoop w size fuel (n + o.1.n.toNat) g.2 o.2
      else ((n + o.1.n.toNat, readStop g.1.err), g.2, o.2)

/-- The buffer `io.Copy` allocates when its source is a `LimitedReader` with `N` left. -/
def copyBufferSize (N : Int) : Nat := if 32 * 1024 > N then (if N < 1 then 1 else N.toNat) else 32 * 1024

/-- The last step of Go's `io.CopyN(dst, src, n)`, given what `io.Copy` of the limited source
returned. -/
def copyNResult (n written : Int) (err : Option GoErr) : Int × Option GoErr :=
  if written = n then (n, none)
  else if written < n ∧ err = none then (written, some .eof) else (written, err)

/-- `io.CopyN` reports the count `io.Copy` did. -/
@[simp] theorem copyNResult_fst (n written : Int) (err : Option GoErr) :
    (copyNResult n written err).1 = written := by
  unfold copyNResult; split_ifs <;> simp_all

section CopyLoops

variable {r : IoReader σ} {view : σ → List UInt8}

/-- A limited reader consumes the bytes of its inner reader. -/
theorem IoReader.Consumes.limit (h : r.Consumes view) : r.limit.Consumes (fun st => view st.1) where
  append n st := by
    rcases le_or_lt st.2 0 with hN | hN
    · simp [IoReader.limit_of_nonpos hN]
    · rw [IoReader.limit_of_pos hN]; exact h.append _ _

/-- What the drain loop hands back is what it took from its reader. -/
theorem IoReader.Consumes.drain_taken (h : r.Consumes view) (size : Nat) :
    ∀ fuel acc s, ∃ k ≤ (view s).length, (r.drain size fuel acc s).1.bytes = acc ++ (view s).take k ∧
      view (r.drain size fuel acc s).2 = (view s).drop k
  | 0, acc, s => ⟨0, by omega, by simp [IoReader.drain], rfl⟩
  | fuel + 1, acc, s => by
    simp only [IoReader.drain]
    obtain ⟨j, hjv, hb, hv⟩ := h.read_spec size s
    split
    · obtain ⟨k, hkv, hn, hv'⟩ := h.drain_taken size fuel (acc ++ (r.read size s).1.bytes)
        (r.read size s).2
      rw [hv, List.length_drop] at hkv
      refine ⟨j + k, by omega, ?_, by rw [hv', hv, List.drop_drop]⟩
      rw [hn, hv, hb, List.append_assoc, List.take_add]
    · exact ⟨j, hjv, by rw [hb], hv⟩

/-- A limited reader records what its inner reader records. -/
theorem IoReader.Records.limit {log : σ → List UInt8} (h : r.Records log) :
    r.limit.Records (fun st => log st.1) := fun n st => by
  rcases le_or_lt st.2 0 with hN | hN
  · simp [IoReader.limit_of_nonpos hN]
  · rw [IoReader.limit_of_pos hN]; exact h _ _

/-- What the drain loop hands back beyond `acc` is what its reader recorded. -/
theorem IoReader.Records.drain {log : σ → List UInt8} (h : r.Records log) (size : Nat) :
    ∀ fuel acc s, ∃ X, (r.drain size fuel acc s).1.bytes = acc ++ X ∧
      log (r.drain size fuel acc s).2 = log s ++ X
  | 0, acc, s => ⟨[], by simp [IoReader.drain]⟩
  | fuel + 1, acc, s => by
    simp only [IoReader.drain]
    split
    · obtain ⟨X, h1, h2⟩ := h.drain size fuel (acc ++ (r.read size s).1.bytes) (r.read size s).2
      exact ⟨(r.read size s).1.bytes ++ X, by rw [h1, List.append_assoc],
        by rw [h2, h size s, List.append_assoc]⟩
    · exact ⟨_, rfl, h size s⟩

/-- **Spec of the drain loop.** Given more rounds than bytes, it hands back everything the reader
had, and stops early only on an error other than `io.EOF`, which it reports. -/
theorem IoReader.Delivers.drain_spec (h : r.Delivers view) {size : Nat} (hsize : 0 < size) :
    ∀ fuel acc s, (view s).length < fuel →
      ((r.drain size fuel acc s).1 = ⟨acc ++ view s, none⟩ ∧ view (r.drain size fuel acc s).2 = []) ∨
      ∃ m s', (r.drain size fuel acc s).1.err = (r.read m s').1.err ∧
        (r.read m s').1.err ≠ none ∧ (r.read m s').1.err ≠ some .eof
  | 0, acc, s, hf => by omega
  | fuel + 1, acc, s, hf => by
    simp only [IoReader.drain]
    obtain ⟨j, -, hjv, hb, hv⟩ := h.read_spec size s
    have hlen : (r.read size s).1.bytes.length = j := by rw [hb, List.length_take]; omega
    split
    · rename_i he
      have hpos : 0 < j := by
        by_cases hb0 : (r.read size s).1.bytes = []
        · exact absurd he (h.progress _ s hsize hb0)
        · exact hlen ▸ List.length_pos.mpr hb0
      rcases h.drain_spec hsize fuel (acc ++ (r.read size s).1.bytes) (r.read size s).2
        (by rw [hv, List.length_drop]; omega) with ⟨hn, hv'⟩ | hfail
      · left
        refine ⟨?_, hv'⟩
        rw [hn, hv, hb, List.append_assoc, List.take_append_drop]
      · exact .inr hfail
    · rename_i he
      by_cases heof : (r.read size s).1.err = some .eof
      · left
        have hend := h.eof_at_end _ _ heof
        rw [hv, List.drop_eq_nil_iff] at hend
        refine ⟨?_, by rw [hv]; exact List.drop_eq_nil_of_le hend⟩
        simp only [readStop, heof, if_true, hb, List.take_of_length_le hend]
      · exact .inr ⟨size, s, by simp [readStop, heof], he, heof⟩

/-- On a reader that only ever ends, the drain loop hands back everything, with no error. -/
theorem IoReader.Delivers.drain_clean (h : r.Delivers view) (hc : r.Clean) {size : Nat}
    (hsize : 0 < size) {fuel : Nat} (acc : List UInt8) (s : σ) (hf : (view s).length < fuel) :
    (r.drain size fuel acc s).1 = ⟨acc ++ view s, none⟩ ∧ view (r.drain size fuel acc s).2 = [] := by
  rcases h.drain_spec hsize fuel acc s hf with hok | ⟨m, s', -, hne, hne'⟩
  · exact hok
  · rcases hc m s' with he | he
    · exact absurd he hne
    · exact absurd he hne'

/-- **io.CopyN into io.Discard on a reader that only ever ends.** It discards the next `n` bytes
and succeeds when they are there; otherwise it discards what is left and reports `io.EOF`. -/
theorem IoReader.Delivers.discardCopyN (h : r.Delivers view) (hc : r.Clean) (n : Nat) (s : σ) :
    copyNResult n (r.limit.discardFrom (n + 1) (s, n)).1.1
        (r.limit.discardFrom (n + 1) (s, n)).1.2 =
        (if n ≤ (view s).length then ((n : Int), none)
          else (((view s).length : Int), some GoErr.eof)) ∧
      view (r.limit.discardFrom (n + 1) (s, n)).2.1 = (view s).drop n := by
  obtain ⟨k, hkv, hb, hv⟩ := h.toConsumes.limit.drain_taken 8192 (n + 1) [] (s, n)
  have hlv : (limitView view (s, (n : Int))).length = min n (view s).length := by
    simp [limitView, Nat.min_comm]
  have hf : (limitView view (s, (n : Int))).length < n + 1 := by rw [hlv]; omega
  obtain ⟨hn, -⟩ := h.limit.drain_clean (IoReader.limit_clean hc) (by decide : 0 < 8192) [] (s, n) hf
  simp only [IoReader.discardFrom, hn, List.nil_append]
  simp only at hv
  have hk : k = min n (view s).length := by
    have hl := congrArg List.length hb
    rw [hn] at hl
    dsimp only at hl hkv
    simp only [List.nil_append, hlv, List.length_take] at hl
    omega
  rw [hv, hlv, hk]
  by_cases hle : n ≤ (view s).length
  · simp [copyNResult, hle, Nat.min_eq_left hle]
  · have hlt : ((view s).length : Int) < n := by omega
    have hne : ¬ ((view s).length : Int) = n := by omega
    rw [Nat.min_eq_right (by omega)]
    simp [copyNResult, hle, hne, hlt, List.drop_eq_nil_of_le (by omega : (view s).length ≤ n)]

/-- The drain loop hands back what it started with, then what a fresh drain collects. -/
theorem IoReader.drain_acc (r : IoReader σ) (size : Nat) :
    ∀ fuel acc s, r.drain size fuel acc s =
      (⟨acc ++ (r.drain size fuel [] s).1.bytes, (r.drain size fuel [] s).1.err⟩, (r.drain size fuel [] s).2)
  | 0, acc, s => by simp [IoReader.drain]
  | fuel + 1, acc, s => by
    simp only [IoReader.drain]
    split
    · rw [IoReader.drain_acc r size fuel (acc ++ _), IoReader.drain_acc r size fuel ([] ++ _)]
      simp
    · simp

/-- **io.Copy into a sink that accepts everything is the drain loop**: the sink receives what the
drain loop collects, and the copy reports its count and error. -/
theorem IoReader.copyLoop_accepting (r : IoReader σ) (size : Nat) :
    ∀ fuel n s out, r.copyLoop Sink.writer size fuel n s (Sink.accepting out) =
      ((n + (r.drain size fuel [] s).1.bytes.length, (r.drain size fuel [] s).1.err),
        (r.drain size fuel [] s).2, Sink.accepting (out ++ (r.drain size fuel [] s).1.bytes))
  | 0, n, s, out => by simp [IoReader.copyLoop, IoReader.drain]
  | fuel + 1, n, s, out => by
    rw [IoReader.drain, IoReader.drain_acc r size fuel]
    by_cases hb : (r.read size s).1.bytes = []
    · by_cases he : (r.read size s).1.err = none
      · simp [IoReader.copyLoop, hb, he, IoReader.copyLoop_accepting r size fuel n]
      · simp [IoReader.copyLoop, hb, he]
    · by_cases he : (r.read size s).1.err = none
      · simp [IoReader.copyLoop, hb, he, IoReader.copyLoop_accepting r size fuel, Nat.add_assoc,
          Int.ofNat_nonneg]
      · simp [IoReader.copyLoop, hb, he, Int.ofNat_nonneg]

/-- Through a limit, what the drain loop hands back comes off the limit's count. -/
theorem IoReader.limit_drain_count (r : IoReader σ) (size : Nat) :
    ∀ fuel acc st, (r.limit.drain size fuel acc st).2.2 + (r.limit.drain size fuel acc st).1.bytes.length =
      st.2 + acc.length
  | 0, acc, st => by simp [IoReader.drain]
  | fuel + 1, acc, st => by
    have hstep : (r.limit.read size st).2.2 + (r.limit.read size st).1.bytes.length = st.2 := by
      rcases le_or_lt st.2 0 with hN | hN
      · simp [IoReader.limit_of_nonpos hN]
      · rw [IoReader.limit_of_pos hN]; simp
    simp only [IoReader.drain]
    split
    · rw [IoReader.limit_drain_count r size fuel]
      simp only [List.length_append]
      omega
    · simp only [List.length_append]
      omega

/-- A reader that simulates `r` through a map of states drains as `r` does. -/
theorem IoReader.drain_map {σ' : Type} {r : IoReader σ} {r' : IoReader σ'} (f : σ → σ')
    (hf : ∀ n s, r'.read n (f s) = ((r.read n s).1, f (r.read n s).2)) (size : Nat) :
    ∀ fuel acc s, r'.drain size fuel acc (f s) = ((r.drain size fuel acc s).1, f (r.drain size fuel acc s).2)
  | 0, _, _ => rfl
  | fuel + 1, acc, s => by
    simp only [IoReader.drain, hf]
    split_ifs
    · exact IoReader.drain_map f hf size fuel _ _
    · rfl

/-- Two limits with one count are one limit whose count is kept twice: the second
`io.LimitedReader` that `io.CopyN(w, l, l.N)` wraps around a limited reader `l`. -/
theorem IoReader.limit_limit_read (r : IoReader σ) (n : Nat) (st : σ × Int) :
    r.limit.limit.read n (st, st.2) = ((r.limit.read n st).1, ((r.limit.read n st).2, (r.limit.read n st).2.2)) := by
  rcases le_or_lt st.2 0 with hN | hN
  · rw [IoReader.limit_of_nonpos (show (st, st.2).2 ≤ 0 from hN), IoReader.limit_of_nonpos hN]
  · rw [IoReader.limit_of_pos (show 0 < (st, st.2).2 from hN), IoReader.limit_of_pos hN,
      IoReader.limit_of_pos hN]
    simp only [Nat.min_assoc, Nat.min_self]

/-- The drain loop through the two limits of `limit_limit_read`. -/
theorem IoReader.limit_limit_drain (r : IoReader σ) (size fuel : Nat) (acc : List UInt8) (st : σ × Int) :
    r.limit.limit.drain size fuel acc (st, st.2) =
      ((r.limit.drain size fuel acc st).1, ((r.limit.drain size fuel acc st).2, (r.limit.drain size fuel acc st).2.2)) :=
  IoReader.drain_map (fun st => (st, st.2)) (IoReader.limit_limit_read r) size fuel acc st

/-- **Through a limit, the drain loop takes exactly the first `N` bytes** of a reader that only
ever ends, and brings the count down by their number. -/
theorem IoReader.Delivers.limit_drain (h : r.Delivers view) (hc : r.Clean) {size : Nat}
    (hsize : 0 < size) {fuel : Nat} (N : Int) (s : σ) (hf : ((view s).take N.toNat).length < fuel) :
    ∃ s', view s' = (view s).drop N.toNat ∧
      r.limit.drain size fuel [] (s, N) =
        (⟨(view s).take N.toNat, none⟩, (s', N - ((view s).take N.toNat).length)) := by
  obtain ⟨k, hkv, hb, hv⟩ := h.toConsumes.limit.drain_taken size fuel [] (s, N)
  obtain ⟨hn, -⟩ := h.limit.drain_clean (IoReader.limit_clean hc) hsize [] (s, N) hf
  have hcount := IoReader.limit_drain_count r size fuel [] (s, N)
  simp only [List.nil_append, limitView] at hn hv hkv
  simp only [hn, List.nil_append, List.length_nil] at hb hcount
  refine ⟨(r.limit.drain size fuel [] (s, N)).2.1, ?_, Prod.ext hn (Prod.ext rfl (by dsimp only; omega))⟩
  -- the drain took `k` bytes, and the first `k` are the first `N`
  have hl := congrArg List.length hb
  simp only [List.length_take] at hl
  rw [hv]
  rcases Nat.le_total N.toNat (view s).length with hN | hN
  · rw [show k = N.toNat by omega]
  · rw [List.drop_eq_nil_of_le hN, List.drop_eq_nil_of_le (by omega)]

/-- A reader stalled at `s`: every read there hands over nothing, fails, and stays at `s` (a
typed `Reader` with a latched error is one). -/
def IoReader.Stalled (r : IoReader σ) (s : σ) : Prop :=
  ∀ n, (r.read n s).1.bytes = [] ∧ (r.read n s).1.err ≠ none ∧ (r.read n s).2 = s

theorem IoReader.Stalled.limit {s : σ} (h : r.Stalled s) (N : Int) : r.limit.Stalled (s, N) := by
  intro n
  by_cases hN : N ≤ 0
  · simp [@IoReader.limit_of_nonpos _ r n (s, N) hN]
  · obtain ⟨hb, he, hs⟩ := h (min n N.toNat)
    simp only [@IoReader.limit_of_pos _ r n (s, N) (by dsimp only; omega), hb,
      hs, List.length_nil, Int.ofNat_zero, Int.sub_zero]
    exact ⟨trivial, he, trivial⟩

/-- The drain loop does not move a stalled reader. -/
theorem IoReader.Stalled.drain {s : σ} (h : r.Stalled s) (size : Nat) :
    ∀ fuel acc, (r.drain size fuel acc s).2 = s
  | 0, _ => rfl
  | _ + 1, _ => by
    obtain ⟨-, he, hs⟩ := h size
    simp only [IoReader.drain, if_neg he, hs]

end CopyLoops

/-! ## What every read keeps, the loops keep -/

/-- A property of the reader's state that every read keeps. -/
def IoReader.Keeps (r : IoReader σ) (P : σ → Prop) : Prop := ∀ n s, P s → P (r.read n s).2

section Keeps

variable {r : IoReader σ} {P : σ → Prop}

theorem IoReader.Keeps.fillLoop (h : r.Keeps P) (want : Nat) :
    ∀ fuel acc s, P s → P (r.fillLoop want fuel acc s).2
  | 0, _, _, hs => hs
  | fuel + 1, acc, s, hs => by
    simp only [IoReader.fillLoop]
    split_ifs
    · exact h.fillLoop want fuel _ _ (h _ s hs)
    · exact h _ s hs
    · exact hs

theorem IoReader.Keeps.readFull (h : r.Keeps P) (n : Nat) {s : σ} (hs : P s) :
    P (r.readFull n s).2 :=
  h.fillLoop n (n + 1) [] s hs

theorem IoReader.Keeps.limit (h : r.Keeps P) : r.limit.Keeps (fun st => P st.1) := by
  intro n st hs
  rcases le_or_lt st.2 0 with hN | hN
  · rwa [IoReader.limit_of_nonpos hN]
  · rw [IoReader.limit_of_pos hN]; exact h _ _ hs

theorem IoReader.Keeps.drain (h : r.Keeps P) (size : Nat) :
    ∀ fuel acc s, P s → P (r.drain size fuel acc s).2
  | 0, _, _, hs => hs
  | fuel + 1, acc, s, hs => by
    simp only [IoReader.drain]
    split_ifs
    · exact h.drain size fuel _ _ (h _ s hs)
    · exact h _ s hs

end Keeps

end Codec
