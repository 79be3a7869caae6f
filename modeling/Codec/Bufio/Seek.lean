import Codec.Bufio.Source

/-!
# The position of `bufioReaderAdapter` over an `io.ReadSeeker`

`NewReaderSize` puts a `bufio.Reader` over an `io.ReadSeeker` it does not special-case, and
`ForwardSeeker` hands the read-seeker back unchanged, so the adapter's seeker is the source
itself. `Seek` with `io.SeekStart` or `io.SeekCurrent` discards inside the buffer when the target
lies there, and otherwise seeks the source and empties the buffer.

Over a read-seeker whose reads and seeks leave its content as it is (`IoReadSeeker.Steady`), the
adapter's position is exact: what is left to read is the content from the position on
(`BufAdapter.Exact`), after every `Read`, every successful `ReadByte` and every successful
`SeekStart` or `SeekCurrent`. The typed `Reader` counts that position, so from `NewReaderSize` on,
along every run of such calls that latches no error, what is left to read is the content from the
count on (`position_exact_over_seeker`): a `Seek` that returns `(p, nil)` makes byte `p` of the
content the next one read. `SeekEnd` is not among the calls: it seeks the source to its end before
the buffer is consulted.
-/

namespace Codec

variable {ω σ : Type}

/-- A read-seeker whose reads and seeks leave its content as it is, as a file's or a byte slice's
do. -/
structure IoReadSeeker.Steady (rs : IoReadSeeker σ) (content : σ → List UInt8) : Prop where
  read : ∀ n s, content (rs.read n s).2 = content s
  seek : ∀ off wh s, content (rs.seek off wh s).2 = content s

theorem IoReadSeeker.Steady.reads {rs : IoReadSeeker σ} {content : σ → List UInt8}
    (hs : rs.Steady content) : ∀ n s, content (rs.toIoReader.read n s).2 = content s :=
  hs.read

namespace BufReader

variable {rd : IoReader ω} {view c : ω → List UInt8}

/-! ## What the buffer's calls do to the reader beneath -/

theorem fillLoop_keeps (hr : ∀ n s, c (rd.read n s).2 = c s) :
    ∀ i b s, c (fillLoop rd i b s).2 = c s
  | 0, _, _ => rfl
  | i + 1, b, s => by
    simp only [fillLoop]
    split_ifs
    · exact hr _ s
    · exact hr _ s
    · rw [fillLoop_keeps hr i]; exact hr _ s

theorem read_keeps (hr : ∀ n s, c (rd.read n s).2 = c s) (n : Nat) (b : BufReader) (s : ω) :
    c (b.read rd n s).2.2 = c s := by
  simp only [read]
  split_ifs <;> first | rfl | exact hr _ s

theorem readByte_keeps (hr : ∀ n s, c (rd.read n s).2 = c s) (b : BufReader) (s : ω) :
    c (b.readByte rd s).2.2 = c s := by
  unfold readByte
  split
  · rfl
  · split_ifs
    · rfl
    · dsimp only
      split <;> exact fillLoop_keeps hr _ _ _

/-- `Discard(k)` of fewer bytes than the buffer holds skips them there. -/
theorem discard_within {k : Nat} {b : BufReader} (hk : k < b.win.length) (s : ω) :
    b.discard rd k s = ((k, none), { b with win := b.win.drop k }, s) := by
  unfold discard
  split_ifs with h0
  · subst h0; simp
  · have hw : b.win ≠ [] := by rintro h; simp [h] at hk
    simp [discardLoop, hw, Nat.min_eq_right hk.le]

/-- A `ReadByte` that succeeds hands over the next byte of what the buffer and its reader hold. -/
theorem readByte_next (h : rd.Delivers view) (hc : rd.Clean) {b : BufReader} {s : ω}
    (hs : Sound view b s) (hok : (b.readByte rd s).1.2 = none) :
    rest view b s = (b.readByte rd s).1.1 :: rest view (b.readByte rd s).2.1 (b.readByte rd s).2.2 := by
  cases hv : rest view b s with
  | cons x xs =>
    obtain ⟨e1, e2⟩ := (readByte_serves h hc hs).2 x xs hv
    rw [e1, e2]
  | nil =>
    -- nothing left: the buffer is empty, and `ReadByte` reports the pending error or the reader's
    exfalso
    obtain ⟨hsize, herr⟩ := hs
    obtain ⟨size, win, err⟩ := b
    obtain ⟨rfl, hv0⟩ := List.append_eq_nil.mp hv
    simp only at hsize herr
    rcases herr with rfl | ⟨rfl, -⟩
    · obtain ⟨ha, -⟩ := read_under h hc size s
      have hb : (rd.read size s).1.bytes = [] := by rw [hv0] at ha; exact (List.append_eq_nil.mp ha).1
      have hne := h.progress size s hsize hb
      simp [readByte, fill_empty h hsize, hb, readErr] at hok
      exact hne hok
    · simp [readByte, readErr] at hok

end BufReader

namespace BufAdapter

/-- The adapter over a read-seeker reads it whether or not its `bufio.Reader` has been reset onto
it. -/
theorem current_overSeeker (rs : IoReadSeeker σ) (a : BufAdapter σ) :
    current (overSeeker rs) a = rs.toIoReader := by
  unfold current overSeeker
  split <;> simp_all

/-- `SeekCurrent` is `SeekStart` to the position plus the offset. -/
theorem seek_current (ps : Parts ω) (off : Int) (a : BufAdapter ω) :
    seek ps off .current a = seek ps (a.pos + off) .start a := rfl

/-- The adapter at an exact position of the content `stream` of its read-seeker: a sound
`bufio.Reader`, and what is left to hand over is `stream` from the position on. -/
structure Exact (content view : σ → List UInt8) (stream : List UInt8) (a : BufAdapter σ) : Prop where
  sound : BufReader.Sound view a.buf a.world
  content_eq : content a.world = stream
  pos_nonneg : 0 ≤ a.pos
  rest_eq : rest view a = stream.drop a.pos.toNat

section Exact

variable {rs : IoReadSeeker σ} {content view : σ → List UInt8} {stream : List UInt8}

/-- Moving `k` bytes on, over the bytes `k` that were handed over, keeps the position exact. -/
theorem rest_advance {a : BufAdapter σ} (ha : Exact content view stream a) {bs rest' : List UInt8}
    (happ : bs ++ rest' = rest view a) : rest' = stream.drop (a.pos + bs.length).toNat := by
  rw [ha.rest_eq] at happ
  have := ha.pos_nonneg
  rw [show (a.pos + bs.length).toNat = a.pos.toNat + bs.length by omega, ← List.drop_drop, ← happ,
    List.drop_left]

/-- **A `Read` keeps the position exact** and moves it by what it hands over. -/
theorem read_exact (h : rs.Over content view) (hs : rs.Steady content) {a : BufAdapter σ}
    (ha : Exact content view stream a) (n : Nat) :
    Exact content view stream (read (overSeeker rs) n a).2 ∧
      (read (overSeeker rs) n a).2.pos = a.pos + (read (overSeeker rs) n a).1.bytes.length := by
  obtain ⟨happ, -, -, -, -, hsnd, -⟩ := BufReader.read_serves h.delivers h.clean ha.sound n
  simp only [read, current_overSeeker, and_true]
  have := ha.pos_nonneg
  exact ⟨hsnd, (BufReader.read_keeps hs.reads n a.buf a.world).trans ha.content_eq, by dsimp only; omega,
    rest_advance ha happ⟩

/-- **A `ReadByte` that succeeds keeps the position exact** and moves it by one. -/
theorem readByte_exact (h : rs.Over content view) (hs : rs.Steady content) {a : BufAdapter σ}
    (ha : Exact content view stream a) (hok : (readByte (overSeeker rs) a).1.2 = none) :
    Exact content view stream (readByte (overSeeker rs) a).2 ∧
      (readByte (overSeeker rs) a).2.pos = a.pos + 1 := by
  simp only [readByte, current_overSeeker] at hok ⊢
  have hnext := BufReader.readByte_next h.delivers h.clean ha.sound hok
  have := ha.pos_nonneg
  refine ⟨⟨(BufReader.readByte_serves h.delivers h.clean ha.sound).1,
    (BufReader.readByte_keeps hs.reads a.buf a.world).trans ha.content_eq, ?_, ?_⟩, by simp [hok]⟩
  · simp only [hok, if_true]; omega
  · simpa [hok] using rest_advance ha (show [_] ++ _ = _ from hnext.symm)

/-- **A `SeekStart` that succeeds keeps the position exact** and returns the new position: inside
the buffer by `Discard`, elsewhere by the source's own seek. -/
theorem seek_exact (h : rs.Over content view) (hs : rs.Steady content) {a : BufAdapter σ}
    (ha : Exact content view stream a) (t : Int) (hok : (seek (overSeeker rs) t .start a).1.2 = none) :
    Exact content view stream (seek (overSeeker rs) t .start a).2 ∧
      (seek (overSeeker rs) t .start a).1.1 = (seek (overSeeker rs) t .start a).2.pos := by
  have := ha.pos_nonneg
  by_cases hin : a.pos ≤ t ∧ t < a.pos + a.buf.win.length
  · -- inside the buffer: skip `t - pos` buffered bytes
    have hk : (t - a.pos).toNat < a.buf.win.length := by omega
    have e : seek (overSeeker rs) t .start a =
        ((t, none), { a with buf := { a.buf with win := a.buf.win.drop (t - a.pos).toNat }, pos := t }) := by
      simp only [seek, current_overSeeker, if_pos hin, BufReader.discard_within hk]
      rw [show a.pos + ((t - a.pos).toNat : Int) = t by omega]
    rw [e]
    refine ⟨⟨⟨ha.sound.1, ha.sound.2⟩, ha.content_eq, show 0 ≤ t by omega, ?_⟩, rfl⟩
    have happ : a.buf.win.take (t - a.pos).toNat ++ rest view { a with buf := { a.buf with
        win := a.buf.win.drop (t - a.pos).toNat } } = rest view a := by
      simp only [rest, BufReader.rest, ← List.append_assoc, List.take_append_drop]
    have e' := rest_advance ha happ
    rwa [List.length_take, Nat.min_eq_left hk.le, show a.pos + ((t - a.pos).toNat : Int) = t by omega] at e'
  · -- elsewhere: the source seeks, and the buffer is emptied
    cases ho : (rs.seek t .start a.world).1.2 with
    | some err =>
      have e : (seek (overSeeker rs) t .start a).1.2 = some err := by simp [seek, overSeeker, hin, ho]
      rw [e] at hok; cases hok
    | none =>
      obtain ⟨hq, hv⟩ := h.seek_ok t .start a.world ho
      have e : seek (overSeeker rs) t .start a = (((rs.seek t .start a.world).1.1, none), { a with
          buf := a.buf.reset, world := (rs.seek t .start a.world).2, pos := (rs.seek t .start a.world).1.1,
          onSeeker := true }) := by
        simp [seek, overSeeker, hin, ho]
      rw [e]
      refine ⟨⟨⟨ha.sound.1, .inl rfl⟩, (hs.seek t .start a.world).trans ha.content_eq, hq, ?_⟩, rfl⟩
      simp only [rest, BufReader.rest, BufReader.reset, List.nil_append, hv, ha.content_eq]

end Exact

end BufAdapter

/-! ## The typed reader -/

/-- One call on a typed `Reader` made by `NewReaderSize` over the read-seeker `rs` that latches no
error: a `Read`, a `ReadByte`, or a `Seek` from the start or the current position. -/
inductive SeekerStep (rs : IoReadSeeker σ) : Reader × BufAdapter σ → Reader × BufAdapter σ → Prop
  | read {r a} (n : Nat) : (r.read (BufAdapter.pro (BufAdapter.overSeeker rs)) n a).2.1.err = none →
      SeekerStep rs (r, a) (r.read (BufAdapter.pro (BufAdapter.overSeeker rs)) n a).2
  | readByte {r a} : (r.readByte (BufAdapter.pro (BufAdapter.overSeeker rs)) a).2.1.err = none →
      SeekerStep rs (r, a) (r.readByte (BufAdapter.pro (BufAdapter.overSeeker rs)) a).2
  | seek {r a} (off : Int) (wh : Whence) : wh = .start ∨ wh = .current →
      (r.seek (BufAdapter.pro (BufAdapter.overSeeker rs)) off wh a).2.1.err = none →
      SeekerStep rs (r, a) (r.seek (BufAdapter.pro (BufAdapter.overSeeker rs)) off wh a).2

/-- A typed `Reader` with no error latched whose count is its adapter's exact position. -/
def CountExact (content view : σ → List UInt8) (stream : List UInt8) (x : Reader × BufAdapter σ) :
    Prop :=
  x.1.err = none ∧ x.1.count = x.2.pos ∧ BufAdapter.Exact content view stream x.2

section Steps

variable {rs : IoReadSeeker σ} {content view : σ → List UInt8} {stream : List UInt8}

theorem seekerStep_exact (h : rs.Over content view) (hs : rs.Steady content)
    {x y : Reader × BufAdapter σ} (hxy : SeekerStep rs x y) (hx : CountExact content view stream x) :
    CountExact content view stream y := by
  cases hxy with
  | @read r a n he =>
    obtain ⟨hr, hcount, ha⟩ : r.err = none ∧ r.count = a.pos ∧ BufAdapter.Exact content view stream a := hx
    obtain ⟨ha', hpos⟩ := BufAdapter.read_exact h hs ha n
    simp only [Reader.read, hr, ne_eq, not_true_eq_false, if_false, BufAdapter.pro] at he ⊢
    refine ⟨he, ?_, ha'⟩
    simp only [Reader.count_setError]; rw [hpos, hcount]
  | @readByte r a he =>
    obtain ⟨hr, hcount, ha⟩ : r.err = none ∧ r.count = a.pos ∧ BufAdapter.Exact content view stream a := hx
    simp only [Reader.readByte, Reader.getByte, hr, ne_eq, not_true_eq_false, if_false,
      BufAdapter.pro] at he ⊢
    cases hb : (BufAdapter.readByte (BufAdapter.overSeeker rs) a).1.2 with
    | some e => simp [hb] at he
    | none =>
      obtain ⟨ha', hpos⟩ := BufAdapter.readByte_exact h hs ha hb
      simp only [hb]
      exact ⟨rfl, by simp only [hpos, hcount], ha'⟩
  | @seek r a off wh hwh he =>
    obtain ⟨hr, hcount, ha⟩ : r.err = none ∧ r.count = a.pos ∧ BufAdapter.Exact content view stream a := hx
    -- a seek from the current position is one from the start to the position plus the offset
    obtain ⟨t, ht⟩ : ∃ t, BufAdapter.seek (BufAdapter.overSeeker rs) off wh a =
        BufAdapter.seek (BufAdapter.overSeeker rs) t .start a := by
      rcases hwh with rfl | rfl
      · exact ⟨off, rfl⟩
      · exact ⟨a.pos + off, BufAdapter.seek_current _ off a⟩
    simp only [Reader.seek, hr, ne_eq, not_true_eq_false, if_false, BufAdapter.pro, ht] at he ⊢
    have hok : (BufAdapter.seek (BufAdapter.overSeeker rs) t .start a).1.2 = none := by
      simpa [Reader.setError, hr] using he
    obtain ⟨ha', hpos⟩ := BufAdapter.seek_exact h hs ha t hok
    exact ⟨he, by simp only [Reader.count_setError, hpos], ha'⟩

theorem seekerRun_exact (h : rs.Over content view) (hs : rs.Steady content)
    {x y : Reader × BufAdapter σ} (hxy : Relation.ReflTransGen (SeekerStep rs) x y)
    (hx : CountExact content view stream x) : CountExact content view stream y := by
  induction hxy with
  | refl => exact hx
  | tail _ hst ih => exact seekerStep_exact h hs hst ih

end Steps

/-- **The typed `Reader` over an `io.ReadSeeker` counts its exact position.** `NewReaderSize`
over a read-seeker at offset `0` of its content, whose reads and seeks leave that content as it is:
along every run of `Read`, `ReadByte`, and `Seek` from the start or the current position that
latches no error, the count never goes below zero and what is left to read is the content from the
count on. So every call hands over the content between the counts before and after it, and a
`Seek` that returns `(p, nil)` makes byte `p` the next one read. -/
theorem position_exact_over_seeker {rs : IoReadSeeker σ} {content view : σ → List UInt8}
    (h : rs.Over content view) (hs : rs.Steady content) (size : Int) (o : ByteOrder) (s : σ)
    (h0 : view s = content s) {y : Reader × BufAdapter σ}
    (hy : Relation.ReflTransGen (SeekerStep rs) (⟨0, none, o⟩, BufAdapter.start size s) y) :
    y.1.err = none ∧ 0 ≤ y.1.count ∧ BufAdapter.rest view y.2 = (content s).drop y.1.count.toNat := by
  have hx : CountExact content view (content s) (⟨0, none, o⟩, BufAdapter.start size s) :=
    ⟨rfl, rfl, ⟨⟨Nat.lt_of_lt_of_le (by decide) (Nat.le_max_right _ _), .inl rfl⟩, rfl, le_refl 0,
      by simp [BufAdapter.rest, BufReader.rest, BufAdapter.start, BufReader.new, h0]⟩⟩
  obtain ⟨hr, hc, ha⟩ := seekerRun_exact h hs hy hx
  exact ⟨hr, hc ▸ ha.pos_nonneg, by rw [hc]; exact ha.rest_eq⟩

/-- A byte slice's reads and seeks leave the slice as it is. -/
theorem BytesReader.Valid.readSeeker_steady :
    BytesReader.Valid.readSeeker.Steady (fun r => r.1.b) where
  read k r := by
    show ((r.1.read k).2).b = r.1.b
    unfold BytesReader.read; split <;> rfl
  seek off wh r := by
    show (r.1.seek off wh).2.b = r.1.b
    rcases BytesReader.Valid.seek_cases off wh r.1 with ⟨-, hr⟩ | ⟨-, -, hr⟩ <;> rw [hr]

/-- Over `[1, 2, 3, 4]` through a `bufio.Reader` of 16 bytes: a `ReadByte`, then a seek back to
offset `0` inside the buffer. -/
theorem position_exact_over_seeker_bytes :
    let P := BufAdapter.pro (BufAdapter.overSeeker BytesReader.Valid.readSeeker)
    let x : Reader × BufAdapter BytesReader.Valid :=
      (⟨0, none, .bigEndian⟩, BufAdapter.start 16 (BytesReader.Valid.new [1, 2, 3, 4]))
    let y := (x.1.readByte P x.2).2
    let z := (y.1.seek P 0 .start y.2).2
    z.1.err = none ∧ 0 ≤ z.1.count ∧
      BufAdapter.rest BytesReader.Valid.rest z.2 = [1, 2, 3, 4].drop z.1.count.toNat :=
  position_exact_over_seeker BytesReader.Valid.over BytesReader.Valid.readSeeker_steady 16 .bigEndian
    (BytesReader.Valid.new [1, 2, 3, 4]) rfl
    ((Relation.ReflTransGen.single (SeekerStep.readByte (by decide))).tail
      (SeekerStep.seek 0 .start (.inl rfl) (by decide)))

end Codec
