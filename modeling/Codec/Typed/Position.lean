import Codec.Typed.Latch
import Codec.Setup

/-!
# The typed `Reader`'s count is its source's position

`Reader` keeps its own count of what it has consumed: `Read` adds what came, the typed reads and
`ReadBytes` add through `io.ReadFull`, `Align` through `Discard`, `WriteTo` adds what its source
reports written, and `Seek` replaces the count by the position its source returns. The count is
the source's position exactly when the source's calls move that position by what they report
(`ReaderPro.Tracks`). Over such a source every call but `ReadTo` keeps the count equal to the
position (`exec_tracks`), given that a `Seek` succeeds and that a `WriteTo`'s writer reports a count
`io.Writer` allows; so does every run of such calls (`trackedRun_tracks`).

A `*BytesReader`, which `NewReaderSize` puts under the `Reader` as it is, is such a source
(`BytesReader.pro_tracks`): from `NewReaderSize` on, the count is the cursor, and what is left to
read is the slice from the count on (`count_is_cursor`). `ReadTo` is left out because the value
reading itself reports its own count, and a failed `Seek` because the count becomes whatever
position the source returns with the error.

`Align(n)` moves a count to `Roundup(count, n)`, which is the next multiple of `n` when `n` is a
power of two (`nextMultiple`): the writer pads to it and the reader over a byte slice skips to it,
so both ends of a stream reach the same multiple by the same bytes (`align_pow2_agrees`).
-/

namespace Codec

variable {ρ τ φ : Type}

/-- A writer that keeps `io.Writer`'s contract on its count: `0 ≤ n ≤ len(p)`. -/
def IoWriter.Reports (w : IoWriter τ) : Prop :=
  ∀ p t, 0 ≤ (w.write p t).1.n ∧ (w.write p t).1.n ≤ p.length

/-- A source whose calls move its position `pos` by what they report and keep its content: `Read`
by the bytes it hands over, `ReadByte` by the byte it returns, a successful `Seek` to the position
it returns, which is not negative, and `WriteTo` into a writer keeping `io.Writer`'s contract by
the count it returns, which is not negative either. -/
structure ReaderPro.Tracks (p : ReaderPro ρ) (pos : ρ → Int) (content : ρ → List UInt8) : Prop where
  read : ∀ n s, pos (p.read n s).2 = pos s + (p.read n s).1.bytes.length ∧
    content (p.read n s).2 = content s
  readByte : ∀ s, pos (p.readByte s).2 = pos s + (if (p.readByte s).1.2 = none then 1 else 0) ∧
    content (p.readByte s).2 = content s
  seek : ∀ off wh s, (p.seek off wh s).1.2 = none → 0 ≤ (p.seek off wh s).1.1 ∧
    pos (p.seek off wh s).2 = (p.seek off wh s).1.1 ∧ content (p.seek off wh s).2 = content s
  writeTo : ∀ {τ : Type} (w : IoWriter τ), w.Reports → ∀ fuel s t,
    0 ≤ (p.writeTo w fuel s t).1.1 ∧
      pos (p.writeTo w fuel s t).2.1 = pos s + (p.writeTo w fuel s t).1.1 ∧
      content (p.writeTo w fuel s t).2.1 = content s

namespace Reader

/-- The count is the source's position, not negative, and the source still holds `c`. -/
def Tracking (pos : ρ → Int) (content : ρ → List UInt8) (c : List UInt8) (x : Reader × ρ) : Prop :=
  x.1.count = pos x.2 ∧ 0 ≤ x.1.count ∧ content x.2 = c

section Tracks

variable {p : ReaderPro ρ} {pos : ρ → Int} {content : ρ → List UInt8} {c : List UInt8}

/-- Read through the typed reader, the count moves with the source. -/
theorem ioReader_keeps (h : p.Tracks pos content) : (ioReader p).Keeps (Tracking pos content c) := by
  rintro n ⟨r, s⟩ ⟨hc, h0, hs⟩
  dsimp only at hc h0 hs
  simp only [ioReader, read]
  split_ifs
  · exact ⟨hc, h0, hs⟩
  · obtain ⟨hp, hk⟩ := h.read n s
    exact ⟨by simp [hc, hp], by simp; omega, hk.trans hs⟩

theorem getByte_tracks (h : p.Tracks pos content) {r : Reader} {s : ρ}
    (hx : Tracking pos content c (r, s)) : Tracking pos content c (getByte p r s).2 := by
  obtain ⟨hc, h0, hs⟩ := hx
  dsimp only at hc h0 hs
  obtain ⟨hp, hk⟩ := h.readByte s
  unfold getByte
  split_ifs
  · exact ⟨hc, h0, hs⟩
  · dsimp only
    split <;> rename_i he <;> simp only [he, if_true, reduceCtorEq, if_false] at hp
    · exact ⟨by simp [hc, hp], by simp; omega, hk.trans hs⟩
    · exact ⟨by simp [hc, hp], h0, hk.trans hs⟩

theorem readFull_tracks (h : p.Tracks pos content) (n : Nat) {r : Reader} {s : ρ}
    (hx : Tracking pos content c (r, s)) : Tracking pos content c (readFull p n r s).2 := by
  have hg := (ioReader_keeps h).readFull n hx
  unfold readFull
  split_ifs
  · exact hx
  · dsimp only
    split
    · exact hg
    · exact hg

end Tracks

end Reader

namespace ReaderOp

/-- The calls whose count is the source's movement whatever they meet: all but `Seek`, `WriteTo`
and `ReadTo`. -/
def Plain : ReaderOp τ φ → Prop
  | seek _ _ | writeTo _ _ _ | readTo _ _ _ => False
  | _ => True

variable {p : ReaderPro ρ} {pos : ρ → Int} {content : ρ → List UInt8} {c : List UInt8}

/-- **Every plain call keeps the count at the source's position.** -/
theorem exec_tracks (h : p.Tracks pos content) {op : ReaderOp τ φ} (hop : op.Plain) {r : Reader}
    {s : ρ} (hx : Reader.Tracking pos content c (r, s)) :
    Reader.Tracking pos content c (op.exec p r s).2.2 := by
  cases op with
  | read buf => exact Reader.ioReader_keeps h _ _ hx
  | readByte | readBool | readUint8 | readInt8 => exact Reader.getByte_tracks h hx
  | readUint16 | readUint32 | readUint64 | readInt16 | readInt32 | readInt64 =>
    exact Reader.readFull_tracks h _ hx
  | readBytes n =>
    simp only [exec, Reader.readBytes]
    split_ifs
    · exact hx
    · exact Reader.readFull_tracks h _ hx
  | readBytesTo d =>
    simp only [exec, Reader.readBytesTo]
    split_ifs
    · exact hx
    · have hg := (Reader.ioReader_keeps h).readFull d.length hx
      split <;> exact hg
  | align n =>
    simp only [exec, Reader.align]
    split_ifs
    · exact (Reader.ioReader_keeps h).discard _ hx
    · exact hx
  | result => exact hx
  | seek | writeTo | readTo => exact hop.elim

end ReaderOp

/-- One call of the typed reader after which its count is still the source's position: a call
other than `Seek`, `WriteTo` and `ReadTo`; a `Seek` that succeeds; or a `WriteTo` into a writer
keeping `io.Writer`'s contract. -/
inductive TrackedCall (p : ReaderPro ρ) : Reader × ρ → Reader × ρ → Prop
  | call {x : Reader × ρ} {τ φ : Type} (op : ReaderOp τ φ) :
      op.Plain → TrackedCall p x (op.exec p x.1 x.2).2.2
  | seek {x : Reader × ρ} (off : Int) (wh : Whence) :
      (x.1.seek p off wh x.2).1.2 = none → TrackedCall p x (x.1.seek p off wh x.2).2
  | writeTo {x : Reader × ρ} {τ : Type} (w : IoWriter τ) (fuel : Nat) (t : τ) :
      w.Reports → TrackedCall p x (x.1.writeTo p (some w) fuel t x.2).2.2

section Run

variable {p : ReaderPro ρ} {pos : ρ → Int} {content : ρ → List UInt8} {c : List UInt8}

theorem trackedCall_tracks (h : p.Tracks pos content) {x y : Reader × ρ} (hxy : TrackedCall p x y)
    (hx : Reader.Tracking pos content c x) : Reader.Tracking pos content c y := by
  obtain ⟨r, s⟩ := x
  obtain ⟨hc, h0, hs⟩ := hx
  dsimp only at hc h0 hs
  cases hxy with
  | call op hop => exact ReaderOp.exec_tracks h hop ⟨hc, h0, hs⟩
  | seek off wh he =>
    have hr : r.err = none := by
      by_contra hr; simp [Reader.seek, hr] at he
    simp only [Reader.seek, hr, ne_eq, not_true_eq_false, if_false] at he ⊢
    obtain ⟨h0, hp, hk⟩ := h.seek off wh s he
    exact ⟨by simp [hp], by simpa using h0, hk.trans hs⟩
  | writeTo w fuel t hw =>
    obtain ⟨hw0, hp, hk⟩ := h.writeTo w hw fuel s t
    simp only [Reader.writeTo]
    split_ifs
    · exact ⟨hc, h0, hs⟩
    · exact ⟨by simp [hc, hp], by simp; omega, hk.trans hs⟩

/-- **Along every run of tracked calls the count is the source's position.** -/
theorem trackedRun_tracks (h : p.Tracks pos content) {x y : Reader × ρ}
    (hxy : Relation.ReflTransGen (TrackedCall p) x y) (hx : Reader.Tracking pos content c x) :
    Reader.Tracking pos content c y := by
  induction hxy with
  | refl => exact hx
  | tail _ hst ih => exact trackedCall_tracks h hst ih

end Run

/-- **A `*BytesReader` tracks its cursor**: each call moves the cursor by what it reports, and
none changes the slice. -/
theorem BytesReader.pro_tracks : BytesReader.pro.Tracks (·.n) (·.b) where
  read n r := by
    simp only [BytesReader.pro, BytesReader.read]
    split_ifs <;> simp
  readByte r := by
    simp only [BytesReader.pro, BytesReader.readByte]
    split_ifs <;> simp_all
  seek off wh r he := by
    simp only [BytesReader.pro, BytesReader.seek] at he ⊢
    cases wh <;> simp only at he ⊢ <;> (try split_ifs at he ⊢) <;> simp_all
  writeTo w hw fuel r t := by
    obtain ⟨h0, hle⟩ := hw r.rest t
    have hrest : (r.rest.length : Int) ≤ r.b.length := by
      simp only [BytesReader.rest, List.length_drop]; omega
    simp only [BytesReader.pro, BytesReader.writeTo]
    split_ifs
    · simp
    · omega
    · exact ⟨h0, rfl, rfl⟩

/-! ## Align to a power of two -/

/-- The least multiple of `2^k` at or above `c`: where `Align(2^k)` takes a count `c`. -/
def nextMultiple (c k : Nat) : Nat := 2 ^ k * ((c + 2 ^ k - 1) / 2 ^ k)

theorem roundup_eq_nextMultiple (c k : Nat) : roundup c (2 ^ k) = nextMultiple c k :=
  roundup_two_pow c k

theorem le_nextMultiple (c k : Nat) : c ≤ nextMultiple c k := by
  exact_mod_cast (roundup_eq_nextMultiple c k) ▸ le_roundup c k

theorem one_lt_two_pow_int {k : Nat} (hk : 0 < k) : (1 : Int) < 2 ^ k := by
  exact_mod_cast Nat.one_lt_two_pow hk.ne'

/-- The padding is less than one step of `2^k`. -/
theorem nextMultiple_sub_lt (c k : Nat) : nextMultiple c k - c < 2 ^ k := by
  have := Nat.div_add_mod (c + 2 ^ k - 1) (2 ^ k)
  have := Nat.mod_lt (c + 2 ^ k - 1) (Nat.two_pow_pos k)
  unfold nextMultiple; omega

/-- Moving a slice reader's cursor by `d` drops `d` bytes of what is left. -/
theorem BytesReader.rest_advance {s : BytesReader} (hs : 0 ≤ s.n) (d : Nat) :
    ({ s with n := s.n + d } : BytesReader).rest = s.rest.drop d := by
  simp only [BytesReader.rest, List.drop_drop]
  congr 1; omega

/-- **The writer's `Align(2^k)`** pads a count `c` with `nextMultiple c k - c` zeros. -/
theorem Writer.align_pow2 {τ : Type} {p : WriterPro τ} {v : SinkView τ} (h : p.Appends v)
    {w : Writer} (hw : w.err = none) {c : Nat} (hc : w.count = c) {k : Nat} (hk : 0 < k) {t : τ}
    (hr : v.Room t (nextMultiple c k - c)) :
    (w.align p (2 ^ k) t).1 = { w with count := nextMultiple c k } ∧
      v.Takes t (List.replicate (nextMultiple c k - c) 0) (w.align p (2 ^ k) t).2 := by
  have hle := le_nextMultiple c k
  have hd : (roundup w.count (2 ^ k) - w.count).toNat = nextMultiple c k - c := by
    rw [hc, roundup_eq_nextMultiple]; omega
  have := Writer.align_appends h hw (one_lt_two_pow_int hk)
    (by rw [hc, roundup_eq_nextMultiple]; omega) (hd ▸ hr)
  rwa [hd, hc, roundup_eq_nextMultiple] at this

/-- **The reader's `Align(2^k)` over a byte slice** skips the `nextMultiple c k - c` bytes after a
count `c`, when they are there: `Discard` makes one read, and a byte slice hands over all it is
asked for. -/
theorem Reader.align_pow2_bytesReader {r : Reader} (hr : r.err = none) {c : Nat} (hc : r.count = c)
    {k : Nat} (hk : 0 < k) (hb : 2 ^ k ≤ bufferSize) {s : BytesReader} (hs : 0 ≤ s.n)
    (hrest : nextMultiple c k - c ≤ s.rest.length) :
    r.align BytesReader.pro (2 ^ k) s =
      ({ r with count := nextMultiple c k }, { s with n := s.n + (nextMultiple c k - c : Nat) }) := by
  have hle := le_nextMultiple c k
  have hlt := nextMultiple_sub_lt c k
  unfold Reader.align
  rw [if_pos (one_lt_two_pow_int hk), hc, roundup_eq_nextMultiple,
    show (nextMultiple c k : Int) - c = ((nextMultiple c k - c : Nat) : Int) by omega]
  rcases Nat.eq_zero_or_pos (nextMultiple c k - c) with h0 | h0
  · rw [h0, Nat.cast_zero, discard_zero]
    obtain ⟨count, err, order⟩ := r
    simp only at hc
    simp [hc, show nextMultiple c k = c by omega]
  · have hn : s.n < s.b.length := by
      have := (BytesReader.rest_eq_nil hs).not.mp (List.ne_nil_of_length_pos (by omega))
      omega
    rw [discard_fast h0 (by omega)]
    simp only [Reader.ioReader, Reader.read, hr, ne_eq, not_true_eq_false, if_false, BytesReader.pro,
      BytesReader.read_of_lt hn, List.length_take, Nat.min_eq_left hrest, Reader.setError, hc, if_true]
    congr 2; omega

/-- **`Align(2^k)` takes both ends to the same multiple.** For `1 < 2^k ≤ BUFFER_SIZE`, a writer
over any sink that takes what it has room for and a reader over a byte slice, both at count `c`
with no error latched: both counts become `nextMultiple c k`, a multiple of `2^k` less than `2^k`
past `c`; the writer appends that many zeros and the reader skips that many bytes. -/
theorem align_pow2_agrees {τ : Type} {p : WriterPro τ} {v : SinkView τ} (h : p.Appends v)
    {w : Writer} {r : Reader} (hw : w.err = none) (hr : r.err = none) {c : Nat} (hwc : w.count = c)
    (hrc : r.count = c) {k : Nat} (hk : 0 < k) (hb : 2 ^ k ≤ bufferSize) {t : τ}
    (ht : v.Room t (nextMultiple c k - c)) {s : BytesReader} (hs : 0 ≤ s.n)
    (hrest : nextMultiple c k - c ≤ s.rest.length) :
    2 ^ k ∣ nextMultiple c k ∧ c ≤ nextMultiple c k ∧ nextMultiple c k < c + 2 ^ k ∧
      (w.align p (2 ^ k) t).1.count = nextMultiple c k ∧
      v.Takes t (List.replicate (nextMultiple c k - c) 0) (w.align p (2 ^ k) t).2 ∧
      (r.align BytesReader.pro (2 ^ k) s).1.count = nextMultiple c k ∧
      (r.align BytesReader.pro (2 ^ k) s).2.rest = s.rest.drop (nextMultiple c k - c) := by
  obtain ⟨hw1, hw2⟩ := Writer.align_pow2 h hw hwc hk ht
  have hra := Reader.align_pow2_bytesReader hr hrc hk hb hs hrest
  have hle := le_nextMultiple c k
  have hlt := nextMultiple_sub_lt c k
  refine ⟨Nat.dvd_mul_right _ _, hle, by omega, by rw [hw1], hw2, by rw [hra], ?_⟩
  rw [hra]; exact BytesReader.rest_advance hs _

theorem align_pow2_agrees_slices :
    let w : Writer := ⟨3, none, 0, .bigEndian⟩
    let r : Reader := ⟨3, none, .bigEndian⟩
    let t : BytesWriter := ⟨[7, 7, 7, 0, 0], 3⟩
    let s : BytesReader := ⟨[7, 7, 7, 4, 5], 3⟩
    2 ^ 2 ∣ nextMultiple 3 2 ∧ 3 ≤ nextMultiple 3 2 ∧ nextMultiple 3 2 < 3 + 2 ^ 2 ∧
      (w.align BytesWriter.pro (2 ^ 2) t).1.count = nextMultiple 3 2 ∧
      BytesWriter.sinkView.Takes t (List.replicate (nextMultiple 3 2 - 3) 0)
        (w.align BytesWriter.pro (2 ^ 2) t).2 ∧
      (r.align BytesReader.pro (2 ^ 2) s).1.count = nextMultiple 3 2 ∧
      (r.align BytesReader.pro (2 ^ 2) s).2.rest = s.rest.drop (nextMultiple 3 2 - 3) :=
  align_pow2_agrees BytesWriter.pro_appends rfl rfl rfl rfl (by decide) (by decide)
    (by unfold SinkView.Room BytesWriter.sinkView; decide) (by decide) (by decide)

/-- **From `NewReaderSize` over a `*BytesReader`, the count is the cursor.** Whatever size is
asked, `NewReaderSize` puts a `*BytesReader` under the new `Reader` as it is. From there, in any
byte order, along every run of calls other than `ReadTo` in which each `Seek` succeeds and each
`WriteTo`'s writer reports a count `io.Writer` allows, `Count()` equals the cursor `N` and is not
negative, and what is left to read is the slice from `Count()` on: every call reads on from byte
`Count()` of the slice. -/
theorem count_is_cursor (size : Int) (s : List UInt8) (o : ByteOrder) {y : Reader × BytesReader}
    (hy : Relation.ReflTransGen (TrackedCall BytesReader.pro) (⟨0, none, o⟩, BytesReader.new s) y) :
    newReaderSize (some .bytesReader) size = .ok .direct ∧
      y.1.count = y.2.n ∧ 0 ≤ y.1.count ∧ y.2.rest = s.drop y.1.count.toNat := by
  obtain ⟨hc, h0, hb⟩ := trackedRun_tracks BytesReader.pro_tracks hy
    (show Reader.Tracking (fun r : BytesReader => r.n) (·.b) s _ from ⟨rfl, le_refl _, rfl⟩)
  exact ⟨rfl, hc, h0, by simp only [BytesReader.rest, ← hb, hc]⟩

/-- Over `[1, 2, 3, 4]`: a `ReadUint16`, then `Seek(1, io.SeekCurrent)`. -/
theorem count_is_cursor_bytes :
    let x : Reader × BytesReader := (⟨0, none, .bigEndian⟩, BytesReader.new [1, 2, 3, 4])
    let y := ((ReaderOp.readUint16 0 : ReaderOp Unit Unit).exec BytesReader.pro x.1 x.2).2.2
    let z := (y.1.seek BytesReader.pro 1 .current y.2).2
    newReaderSize (some .bytesReader) 0 = .ok .direct ∧ z.1.count = z.2.n ∧ 0 ≤ z.1.count ∧
      z.2.rest = [1, 2, 3, 4].drop z.1.count.toNat :=
  count_is_cursor 0 [1, 2, 3, 4] .bigEndian
    ((Relation.ReflTransGen.single
      (TrackedCall.call (ReaderOp.readUint16 0 : ReaderOp Unit Unit) trivial)).tail
      (TrackedCall.seek 1 .current (by decide)))

end Codec
