import Codec.Typed.RoundTrip

/-!
# `bufio.Reader` as the source of a typed `Reader`

`NewReaderSize` puts a `bufio.Reader` under a typed `Reader` for any reader it does not know,
through `bufioReaderAdapter`. Over a reader that only ever ends (`IoReader.Delivers`,
`IoReader.Clean`), the `bufio.Reader` serves the bytes it holds followed by the reader's, at every
state its reads reach (`BufReader.Sound`: a buffer of positive size, and at most a pending
`io.EOF`, once the reader has nothing left). It returns `io.EOF` with data only when a direct read
of its reader does so: for a reader whose `io.EOF` always comes alone, so does the adapter's.

Then the typed round trip holds on the default path too, over any reader that only ever ends
(`typed_round_trip_eof_latched`): every value comes back and every byte is counted. The typed reader
latches `io.EOF` only when the reader returned it together with the last bytes, which the
`bufio.Reader` passes on only to a `ReadBytesTo` of at least its size; over a reader whose `io.EOF`
comes alone it latches nothing, and leaves whatever follows to read (`typed_round_trip_bufio`).

`WriteTo` of a sound `bufio.Reader` writes its buffer, refills and writes again until the reader is
empty; into a writer that accepts everything it hands over exactly what the buffer and the reader
hold (`BufReader.writeTo_accepting`), so the typed `Reader.WriteTo` streams exactly what is left
(`writeTo_streams_rest`).
-/

namespace Codec

variable {ω σ : Type}

/-- A reader whose `io.EOF` comes only with no data, as in-memory readers' does. -/
def IoReader.EofAlone (r : IoReader ω) : Prop :=
  ∀ n s, (r.read n s).1.err = some .eof → (r.read n s).1.bytes = []

namespace BufReader

variable {rd : IoReader ω} {view : ω → List UInt8}

/-- A `bufio.Reader` over a reader that only ever ends, in a state its reads reach: a buffer of
positive size, and at most a pending `io.EOF`, once the reader has nothing left. -/
def Sound (view : ω → List UInt8) (b : BufReader) (s : ω) : Prop :=
  0 < b.size ∧ (b.err = none ∨ b.err = some .eof ∧ view s = [])

/-- What a `bufio.Reader` has to hand over: its buffer, then its reader's bytes. -/
def rest (view : ω → List UInt8) (b : BufReader) (s : ω) : List UInt8 := b.win ++ view s

/-- One read of the reader beneath, into a buffer that is sound and empty: what it returns, the
rest it leaves, its error, and the soundness of a buffer holding the rest with that error. -/
theorem read_under (h : rd.Delivers view) (hc : rd.Clean) (n : Nat) (s : ω) :
    (rd.read n s).1.bytes ++ view (rd.read n s).2 = view s ∧
      ((rd.read n s).1.err = none ∨ (rd.read n s).1.err = some .eof ∧ view (rd.read n s).2 = []) := by
  refine ⟨h.toConsumes.append n s, ?_⟩
  rcases hc n s with he | he
  · exact .inl he
  · exact .inr ⟨he, h.eof_at_end n s he⟩

/-- **What one `Read` of a sound `bufio.Reader` does.** It hands over the next bytes of what it
has, at most as many as asked, and moves past them; with something asked it hands over a byte or
an error, the error being at most `io.EOF`, once nothing is left, and coming with data only when
the reader beneath returned both; and it stays sound. -/
theorem read_serves (h : rd.Delivers view) (hc : rd.Clean) {b : BufReader} {s : ω}
    (hs : Sound view b s) (n : Nat) :
    (b.read rd n s).1.bytes ++ rest view (b.read rd n s).2.1 (b.read rd n s).2.2 = rest view b s ∧
      (b.read rd n s).1.bytes.length ≤ n ∧
      (0 < n → (b.read rd n s).1.bytes = [] → (b.read rd n s).1.err ≠ none) ∧
      ((b.read rd n s).1.err = none ∨ (b.read rd n s).1.err = some .eof) ∧
      ((b.read rd n s).1.err = some .eof → rest view (b.read rd n s).2.1 (b.read rd n s).2.2 = []) ∧
      Sound view (b.read rd n s).2.1 (b.read rd n s).2.2 ∧
      (rd.EofAlone → (b.read rd n s).1.err = some .eof → (b.read rd n s).1.bytes = []) := by
  obtain ⟨hsize, herr⟩ := hs
  obtain ⟨size, win, err⟩ := b
  simp only at hsize herr
  by_cases hw : win = []
  · subst hw
    rcases herr with rfl | ⟨rfl, hv⟩
    · by_cases hn : n = 0
      · subst hn
        have e : read rd 0 ⟨size, [], none⟩ s = (⟨[], none⟩, ⟨size, [], none⟩, s) := by
          simp [read, readErr]
        rw [e]
        exact ⟨rfl, le_refl _, fun h => absurd h (by omega), .inl rfl, nofun, ⟨hsize, .inl rfl⟩, fun _ _ => rfl⟩
      obtain ⟨ha, hg⟩ := read_under h hc n s
      obtain ⟨ha', hg'⟩ := read_under h hc size s
      by_cases hle : size ≤ n
      · have e : read rd n ⟨size, [], none⟩ s =
            (⟨(rd.read n s).1.bytes, (rd.read n s).1.err⟩, ⟨size, [], none⟩, (rd.read n s).2) := by
          simp [read, hn, hle]
        rw [e]
        refine ⟨ha, h.length_le n s, fun hn' => h.progress n s hn', hc n s, fun he => ?_, ⟨hsize, .inl rfl⟩,
          fun hal he => hal n s he⟩
        rcases hg with hg | hg
        · simp [hg] at he
        · simpa [rest] using hg.2
      by_cases hb : (rd.read size s).1.bytes = []
      · have e : read rd n ⟨size, [], none⟩ s = (⟨[], (rd.read size s).1.err⟩, ⟨size, [], none⟩, (rd.read size s).2) := by
          simp [read, hn, hle, hb]
        rw [e]
        refine ⟨by simpa [rest, hb] using ha', Nat.zero_le _, fun _ _ => h.progress size s hsize hb, hc size s,
          fun he => ?_, ⟨hsize, .inl rfl⟩, fun _ _ => rfl⟩
        rcases hg' with hg' | hg'
        · simp [hg'] at he
        · simpa [rest] using hg'.2
      · have e : read rd n ⟨size, [], none⟩ s = (⟨(rd.read size s).1.bytes.take n, none⟩,
            ⟨size, (rd.read size s).1.bytes.drop n, (rd.read size s).1.err⟩, (rd.read size s).2) := by
          simp [read, hn, hle, hb]
        rw [e]
        refine ⟨by simpa only [rest, List.nil_append, ← List.append_assoc, List.take_append_drop] using ha',
          List.length_take_le _ _, fun _ hnil => ?_, .inl rfl, nofun, ⟨hsize, hg'⟩, fun _ => nofun⟩
        exact absurd ((List.take_eq_nil_iff.mp hnil).resolve_left hn) hb
    · have e : read rd n ⟨size, [], some .eof⟩ s = (⟨[], some .eof⟩, ⟨size, [], none⟩, s) := by
        by_cases hn : n = 0 <;> simp [read, readErr, hn]
      rw [e]
      exact ⟨rfl, Nat.zero_le _, fun _ _ => nofun, .inr rfl, fun _ => by simp [rest, hv], ⟨hsize, .inl rfl⟩,
        fun _ _ => rfl⟩
  · by_cases hn : n = 0
    · subst hn
      have e : read rd 0 ⟨size, win, err⟩ s = (⟨[], none⟩, ⟨size, win, err⟩, s) := by simp [read, hw]
      rw [e]
      exact ⟨rfl, le_refl _, fun h => absurd h (by omega), .inl rfl, nofun, ⟨hsize, herr⟩, fun _ _ => rfl⟩
    · have e : read rd n ⟨size, win, err⟩ s = (⟨win.take n, none⟩, ⟨size, win.drop n, err⟩, s) := by
        simp [read, hn, hw]
      rw [e]
      refine ⟨by simp only [rest, ← List.append_assoc, List.take_append_drop], List.length_take_le _ _,
        fun _ hnil => ?_, .inl rfl, nofun, ⟨hsize, herr⟩, fun _ => nofun⟩
      exact absurd ((List.take_eq_nil_iff.mp hnil).resolve_left hn) hw

/-- `fill` of an empty buffer with no pending error: one read of the reader beneath into the whole
buffer, which hands over a byte or an error, so the loop ends there. -/
theorem fill_empty (h : rd.Delivers view) {size : Nat} (hsize : 0 < size) (s : ω) :
    fill rd ⟨size, [], none⟩ s =
      (⟨size, (rd.read size s).1.bytes, (rd.read size s).1.err⟩, (rd.read size s).2) := by
  rw [fill, show (100 : Nat) = 99 + 1 from rfl, fillLoop]
  by_cases he : (rd.read size s).1.err = none
  · have hb : (rd.read size s).1.bytes ≠ [] := fun hb => h.progress size s hsize hb he
    simp [he, hb]
  · simp [he]

/-- **What one `ReadByte` of a sound `bufio.Reader` does**: it stays sound, and hands over the next
byte when there is one. -/
theorem readByte_serves (h : rd.Delivers view) (hc : rd.Clean) {b : BufReader} {s : ω}
    (hs : Sound view b s) :
    Sound view (b.readByte rd s).2.1 (b.readByte rd s).2.2 ∧
      ∀ c cs, rest view b s = c :: cs →
        (b.readByte rd s).1 = (c, none) ∧ rest view (b.readByte rd s).2.1 (b.readByte rd s).2.2 = cs := by
  obtain ⟨hsize, herr⟩ := hs
  obtain ⟨size, win, err⟩ := b
  simp only at hsize herr
  cases win with
  | cons c' r' =>
    refine ⟨⟨hsize, herr⟩, fun c cs hv => ?_⟩
    simp only [rest, List.cons_append, List.cons.injEq] at hv
    simp [readByte, rest, hv.1, hv.2]
  | nil =>
    rcases herr with rfl | ⟨rfl, hv⟩
    · obtain ⟨ha, hg⟩ := read_under h hc size s
      have hp := h.progress size s hsize
      cases hb : (rd.read size s).1.bytes with
      | cons c' r' =>
        have e : readByte rd ⟨size, [], none⟩ s =
            ((c', none), ⟨size, r', (rd.read size s).1.err⟩, (rd.read size s).2) := by
          simp [readByte, fill_empty h hsize, hb]
        rw [e]
        refine ⟨⟨hsize, hg⟩, fun c cs hv => ?_⟩
        simp only [rest, List.nil_append, ← ha, hb, List.cons_append, List.cons.injEq] at hv
        simp [rest, hv.1, hv.2]
      | nil =>
        have he := hp hb
        have hv : view (rd.read size s).2 = [] := by
          rcases hg with hg | hg
          · exact absurd hg he
          · exact hg.2
        have e : readByte rd ⟨size, [], none⟩ s =
            ((0, (rd.read size s).1.err), ⟨size, [], none⟩, (rd.read size s).2) := by
          simp [readByte, fill_empty h hsize, hb, readErr]
        rw [e]
        refine ⟨⟨hsize, .inl rfl⟩, fun c cs hv' => ?_⟩
        simp [rest, ← ha, hb, hv] at hv'
    · refine ⟨by simp [readByte, readErr, Sound, hsize], fun c cs hv' => ?_⟩
      simp [rest, hv] at hv'

/-- `writeBuf` into a sink that accepts everything writes the whole buffer. -/
theorem writeBuf_accepting (b : BufReader) (out : List UInt8) :
    writeBuf Sink.writer b (Sink.accepting out) =
      (((b.win.length : Int), none), { b with win := [] }, Sink.accepting (out ++ b.win)) := by
  simp [writeBuf]

/-- `fill` of a sound, empty buffer: one read of the reader beneath, which keeps what there is to
hand over, the size and the soundness, and leaves the buffer empty only once the reader has
nothing left. -/
theorem fill_sound (h : rd.Delivers view) (hc : rd.Clean) {b : BufReader} {s : ω} (hs : Sound view b s)
    (hw : b.win = []) :
    rest view (fill rd b s).1 (fill rd b s).2 = view s ∧ Sound view (fill rd b s).1 (fill rd b s).2 ∧
      (fill rd b s).1.size = b.size ∧ ((fill rd b s).1.win = [] → view (fill rd b s).2 = []) := by
  obtain ⟨hsize, herr⟩ := hs
  obtain ⟨size, win, err⟩ := b
  simp only at hsize herr hw
  subst hw
  obtain ⟨ha, hg⟩ := read_under h hc size s
  have hp := h.progress size s hsize
  by_cases he : (rd.read size s).1.err = none
  · -- the read brought bytes, and the pending error stays, which an empty reader rules out
    have hb : (rd.read size s).1.bytes ≠ [] := fun hb => hp hb he
    have e : fill rd ⟨size, [], err⟩ s = (⟨size, (rd.read size s).1.bytes, err⟩, (rd.read size s).2) := by
      rw [fill, show (100 : Nat) = 99 + 1 from rfl, fillLoop]; simp [he, hb]
    rw [e]
    refine ⟨ha, ⟨hsize, ?_⟩, rfl, fun h0 => absurd h0 hb⟩
    rcases herr with herr | ⟨-, hv⟩
    · exact .inl herr
    · rw [hv] at ha; exact absurd (List.append_eq_nil.mp ha).1 hb
  · -- the read failed: its error, `io.EOF`, becomes the pending one
    have e : fill rd ⟨size, [], err⟩ s =
        (⟨size, (rd.read size s).1.bytes, (rd.read size s).1.err⟩, (rd.read size s).2) := by
      rw [fill, show (100 : Nat) = 99 + 1 from rfl, fillLoop]; simp [he]
    rw [e]
    have hv := (hg.resolve_left he).2
    exact ⟨ha, ⟨hsize, hg⟩, rfl, fun _ => hv⟩

/-- **The loop of `WriteTo` into a sink that accepts everything**, from a sound buffer that is
empty only once its reader has nothing left: given more rounds than bytes to hand over, the sink
receives all of them, with their count and no error, and the reader is left empty. -/
theorem writeToLoop_accepting (h : rd.Delivers view) (hc : rd.Clean) :
    ∀ fuel (n : Int) (b : BufReader) (s : ω) (out : List UInt8), Sound view b s →
      (b.win = [] → view s = []) → (rest view b s).length < fuel →
      ∃ s', view s' = [] ∧ writeToLoop rd Sink.writer fuel n b s (Sink.accepting out) =
        ((n + (rest view b s).length, none), ⟨b.size, [], none⟩, s', Sink.accepting (out ++ rest view b s))
  | 0, _, _, _, _, _, _, hf => absurd hf (Nat.not_lt_zero _)
  | fuel + 1, n, b, s, out, hs, hw, hf => by
    by_cases hb : b.win = []
    · -- the buffer stayed empty: the reader has nothing left, and the pending error is `io.EOF`
      have hv := hw hb
      have he : (if b.err = some .eof then none else b.err) = none := by
        rcases hs.2 with h0 | ⟨h0, -⟩ <;> simp [h0]
      refine ⟨s, hv, ?_⟩
      obtain ⟨size, win, err⟩ := b
      simp only at hb he
      subst hb
      simp [writeToLoop, he, rest, hv]
    · -- write the buffer out, refill it, and go on with what is left
      obtain ⟨hr, hs', hsz, hw'⟩ := fill_sound h hc (b := { b with win := [] }) hs rfl
      have hlt : (rest view (fill rd { b with win := [] } s).1 (fill rd { b with win := [] } s).2).length < fuel := by
        have := List.length_pos.mpr hb
        rw [hr]; simp only [rest, List.length_append] at hf; omega
      obtain ⟨s', hv, e⟩ := writeToLoop_accepting h hc fuel _ _ _ (out ++ b.win) hs' hw' hlt
      refine ⟨s', hv, ?_⟩
      simp only [writeToLoop, hb, if_false, writeBuf_accepting, ne_eq, not_true_eq_false]
      rw [e, hr, hsz]
      simp [rest, add_assoc]

/-- **`WriteTo` of a sound `bufio.Reader` into a sink that accepts everything** hands over all
it has to, its buffer then its reader's bytes, with their count and no error, and leaves the
reader empty with no pending error. -/
theorem writeTo_accepting (h : rd.Delivers view) (hc : rd.Clean) {b : BufReader} {s : ω}
    (hs : Sound view b s) (out : List UInt8) {fuel : Nat} (hf : (rest view b s).length < fuel) :
    ∃ s', view s' = [] ∧ writeTo rd Sink.writer fuel b s (Sink.accepting out) =
      ((((rest view b s).length : Int), none), ⟨b.size, [], none⟩, s', Sink.accepting (out ++ rest view b s)) := by
  obtain ⟨hr, hs', hsz, hw'⟩ := fill_sound h hc (b := { b with win := [] }) hs rfl
  have hlt : (rest view (fill rd { b with win := [] } s).1 (fill rd { b with win := [] } s).2).length < fuel := by
    rw [hr]; simp only [rest, List.length_append] at hf; omega
  obtain ⟨s', hv, e⟩ := writeToLoop_accepting h hc fuel _ _ _ (out ++ b.win) hs' hw' hlt
  refine ⟨s', hv, ?_⟩
  simp only [writeTo, writeBuf_accepting, ne_eq, not_true_eq_false, if_false, List.length_nil]
  rw [if_pos hs.1, e, hr, hsz]
  simp [rest]

end BufReader

/-! ## The adapter -/

namespace BufAdapter

variable {ps : Parts ω} {view : ω → List UInt8}

/-- The states of a `bufioReaderAdapter` that still reads its first reader, with a sound
`bufio.Reader`. -/
def Reading (view : ω → List UInt8) (a : BufAdapter ω) : Prop :=
  a.onSeeker = false ∧ BufReader.Sound view a.buf a.world

/-- What the adapter has to hand over. -/
def rest (view : ω → List UInt8) (a : BufAdapter ω) : List UInt8 := BufReader.rest view a.buf a.world

theorem current_reading {a : BufAdapter ω} (h : a.onSeeker = false) : current ps a = ps.rd := by
  unfold current; rw [h]

/-- **The adapter serves what its `bufio.Reader` holds and its reader has left**, on every state
that still reads the first reader with a sound buffer. -/
theorem pro_serves (h : ps.rd.Delivers view) (hc : ps.rd.Clean) :
    (pro ps).Serves (Reading view) (rest view) where
  read_ok n a ha := ⟨ha.1, by
    simpa [pro, read, current_reading ha.1] using (BufReader.read_serves h hc ha.2 n).2.2.2.2.2.1⟩
  append n a ha := by
    simpa [pro, read, rest, current_reading ha.1] using (BufReader.read_serves h hc ha.2 n).1
  length_le n a ha := by
    simpa [pro, read, current_reading ha.1] using (BufReader.read_serves h hc ha.2 n).2.1
  progress n a ha := by
    simpa [pro, read, current_reading ha.1] using (BufReader.read_serves h hc ha.2 n).2.2.1
  clean n a ha := by
    simpa [pro, read, current_reading ha.1] using (BufReader.read_serves h hc ha.2 n).2.2.2.1
  eof_at_end n a ha := by
    simpa [pro, read, rest, current_reading ha.1] using (BufReader.read_serves h hc ha.2 n).2.2.2.2.1
  readByte_ok a ha := ⟨ha.1, by
    simpa [pro, readByte, current_reading ha.1] using (BufReader.readByte_serves h hc ha.2).1⟩
  next a c cs ha hv := by
    simpa [pro, readByte, rest, current_reading ha.1] using (BufReader.readByte_serves h hc ha.2).2 c cs hv

theorem pro_eofAlone (h : ps.rd.Delivers view) (hc : ps.rd.Clean) (he : ps.rd.EofAlone) :
    (pro ps).EofAlone (Reading view) := by
  intro n a ha
  simpa [pro, read, current_reading ha.1] using (BufReader.read_serves h hc ha.2 n).2.2.2.2.2.2 he

/-- `WriteTo` through the adapter into a sink that accepts everything, on a state that still reads
the first reader: all the adapter has to hand over, its position moving past it. -/
theorem writeTo_reading (h : ps.rd.Delivers view) (hc : ps.rd.Clean) {a : BufAdapter ω}
    (ha : Reading view a) (out : List UInt8) {fuel : Nat} (hf : (rest view a).length < fuel) :
    ∃ a', Reading view a' ∧ rest view a' = [] ∧ a'.pos = a.pos + (rest view a).length ∧
      writeTo ps Sink.writer fuel a (Sink.accepting out) =
        ((((rest view a).length : Int), none), a', Sink.accepting (out ++ rest view a)) := by
  obtain ⟨s', hv, e⟩ := BufReader.writeTo_accepting h hc ha.2 out hf
  refine ⟨{ a with buf := ⟨a.buf.size, [], none⟩, world := s', pos := a.pos + (rest view a).length },
    ⟨ha.1, ha.2.1, .inl rfl⟩, by simp [rest, BufReader.rest, hv], rfl, ?_⟩
  simp only [writeTo, current_reading ha.1, e]
  rfl

end BufAdapter

/-! ## The default path of `NewReaderSize` -/

namespace ForwardSeeker

variable {src : IoReader σ} {view : σ → List UInt8}

theorem bypass_delivers (h : src.Delivers view) : (bypass src).Delivers (fun fs => view fs.r) where
  append n fs := h.toConsumes.append n fs.r
  length_le n fs := h.length_le n fs.r
  progress n fs := h.progress n fs.r
  eof_at_end n fs := h.eof_at_end n fs.r

theorem bypass_clean (hc : src.Clean) : (bypass src).Clean := fun n fs => hc n fs.r

theorem bypass_eofAlone (he : src.EofAlone) : (bypass src).EofAlone := fun n fs => he n fs.r

end ForwardSeeker

/-- A `*BytesReader` returns `io.EOF` only once it has nothing left, with no data. -/
theorem BytesReader.Valid.reader_eofAlone : BytesReader.Valid.reader.EofAlone := by
  intro n r he
  have e := (BytesReader.Valid.read_spec n r).1
  rw [e] at he ⊢
  by_cases hr : r.rest = [] <;> simp_all

/-- **The typed reads succeed on the default path when the source's `io.EOF` comes alone.** A
typed `Reader` in byte order `o` over the adapter `NewReaderSize` builds for a reader it does not
know (a `bufio.Reader` of any size over it, `ForwardSeeker(r)` as seeker) reads back every value of
any sequence whose encodings the reader delivers, in any chunking, followed by any rest: no error
is latched, the count is the bytes read, and the rest is left to read. It needs only that the
reader fails with nothing but `io.EOF` and returns `io.EOF` with no data. -/
theorem typed_round_trip_bufio {src : IoReader σ} {view : σ → List UInt8} (h : src.Delivers view)
    (hc : src.Clean) (he : src.EofAlone) (size : Int) (o : ByteOrder) (items : List Item) (s : σ)
    (rest : List UInt8) (hv : view s = wireOf o items ++ rest) :
    ∃ a, BufAdapter.rest (fun fs => view fs.r) a = rest ∧
      ReaderOp.run (BufAdapter.pro (BufAdapter.overForward src))
          (items.map Item.readOp : List (ReaderOp Unit Unit)) ⟨0, none, o⟩ (BufAdapter.start size ⟨s, 0⟩) =
        (items.map fun _ => .none, items.map Item.readBack, ⟨0 + (wireOf o items).length, none, o⟩, a) := by
  have hd := ForwardSeeker.bypass_delivers h
  have hs : BufAdapter.Reading (fun fs : ForwardSeeker σ => view fs.r) (BufAdapter.start size ⟨s, 0⟩) :=
    ⟨rfl, Nat.lt_of_lt_of_le (by decide) (Nat.le_max_right _ _), .inl rfl⟩
  have hv' : BufAdapter.rest (fun fs : ForwardSeeker σ => view fs.r) (BufAdapter.start size ⟨s, 0⟩) =
      wireOf o items ++ rest := by
    simpa [BufAdapter.rest, BufReader.rest, BufAdapter.start, BufReader.new] using hv
  obtain ⟨a, -, ha, e⟩ := readRun_serves (τ := Unit) (φ := Unit)
    (BufAdapter.pro_serves hd (ForwardSeeker.bypass_clean hc)) items ⟨0, none, o⟩
    (BufAdapter.start size ⟨s, 0⟩) rest rfl hs hv'
    (.inr (@BufAdapter.pro_eofAlone _ (BufAdapter.overForward src) _ hd (ForwardSeeker.bypass_clean hc)
      (ForwardSeeker.bypass_eofAlone he)))
  exact ⟨a, ha, e⟩

/-- A big-endian `uint16` and a `bool` read through a `bufio.Reader` of 16 bytes over a reader
holding just their bytes. -/
theorem typed_round_trip_bufio_bytes :
    ∃ a, BufAdapter.rest (fun fs => BytesReader.Valid.rest fs.r) a = [] ∧
      ReaderOp.run (BufAdapter.pro (BufAdapter.overForward BytesReader.Valid.reader))
          ([Item.uint16 0x1234, .bool true].map Item.readOp : List (ReaderOp Unit Unit)) ⟨0, none, .bigEndian⟩
          (BufAdapter.start 16 ⟨BytesReader.Valid.new [0x12, 0x34, 1], 0⟩) =
        ([Item.uint16 0x1234, .bool true].map fun _ => .none, [Item.uint16 0x1234, .bool true].map Item.readBack,
          ⟨0 + (wireOf .bigEndian [Item.uint16 0x1234, .bool true]).length, none, .bigEndian⟩, a) :=
  typed_round_trip_bufio BytesReader.Valid.delivers BytesReader.Valid.clean BytesReader.Valid.reader_eofAlone
    16 .bigEndian _ _ [] (by decide)

/-- **`WriteTo` of a typed `Reader` over a `bufio.Reader` streams exactly what is left.** On any
state of the adapter that still reads its first reader with a sound `bufio.Reader` (the state
`NewReaderSize` starts in, which every `Read` and `ReadByte` keeps), over a reader that only ever
ends, `WriteTo` into a writer that accepts everything writes the buffered bytes and then all the
reader has left, reports their number with no error, adds it to the count and latches nothing; the
adapter's position moves past them, and nothing is left to read. -/
theorem writeTo_streams_rest {ps : BufAdapter.Parts ω} {view : ω → List UInt8} (h : ps.rd.Delivers view)
    (hc : ps.rd.Clean) {a : BufAdapter ω} (ha : BufAdapter.Reading view a) {r : Reader} (hr : r.err = none)
    (out : List UInt8) {fuel : Nat} (hf : (BufAdapter.rest view a).length < fuel) :
    ∃ a', BufAdapter.Reading view a' ∧ BufAdapter.rest view a' = [] ∧
      a'.pos = a.pos + (BufAdapter.rest view a).length ∧
      Reader.writeTo (BufAdapter.pro ps) (some Sink.writer) fuel (Sink.accepting out) r a =
        ((((BufAdapter.rest view a).length : Int), none), Sink.accepting (out ++ BufAdapter.rest view a),
          { r with count := r.count + (BufAdapter.rest view a).length }, a') := by
  obtain ⟨a', h1, h2, h3, e⟩ := BufAdapter.writeTo_reading h hc ha out hf
  exact ⟨a', h1, h2, h3, by simp [Reader.writeTo, hr, BufAdapter.pro, e]⟩

/-- Three bytes streamed out of a fresh `bufio.Reader` of 16 bytes over a `*BytesReader`. -/
theorem writeTo_streams_rest_bytes :
    ∃ a', BufAdapter.Reading (fun fs => BytesReader.Valid.rest fs.r) a' ∧
      BufAdapter.rest (fun fs => BytesReader.Valid.rest fs.r) a' = [] ∧ a'.pos = 0 + [1, 2, 3].length ∧
      Reader.writeTo (BufAdapter.pro (BufAdapter.overForward BytesReader.Valid.reader)) (some Sink.writer) 4
          (Sink.accepting []) ⟨0, none, .bigEndian⟩ (BufAdapter.start 16 ⟨BytesReader.Valid.new [1, 2, 3], 0⟩) =
        (((3 : Int), none), Sink.accepting [1, 2, 3], ⟨0 + 3, none, .bigEndian⟩, a') :=
  writeTo_streams_rest (ForwardSeeker.bypass_delivers BytesReader.Valid.delivers)
    (ForwardSeeker.bypass_clean BytesReader.Valid.clean)
    (show BufAdapter.Reading (fun fs : ForwardSeeker BytesReader.Valid => BytesReader.Valid.rest fs.r)
      (BufAdapter.start 16 ⟨BytesReader.Valid.new [1, 2, 3], 0⟩) from ⟨rfl, by decide, .inl rfl⟩) rfl []
    (show (BufAdapter.rest (fun fs : ForwardSeeker BytesReader.Valid => BytesReader.Valid.rest fs.r)
      (BufAdapter.start 16 ⟨BytesReader.Valid.new [1, 2, 3], 0⟩)).length < 4 by decide)

end Codec
