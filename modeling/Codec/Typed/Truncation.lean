import Codec.Typed.RoundTrip

/-!
# A typed stream cut short

What the typed `Reader` does when its source ends inside the values it reads: the values wholly
there are read back, the value the end cuts latches one error and counts the bytes of it that
were there, and every read after it does nothing. The error tells where the end fell: `io.EOF`
before a one-byte value (`ReadByte` reports it) or before the first byte of a byte string
(`io.ReadFull` reports it), and `io.ErrUnexpectedEOF` inside a byte string, or anywhere in a wider
value, whose `readFull` turns even a clean `io.EOF` into it.

## Key lemmas

* `Reader.fillLoop_short` — `io.ReadFull`'s loop through the typed reader, asked for more than
  is left, takes all that is left and stops at the source's `io.EOF`, which the reader latches.
* `Reader.readFull_short` — so `io.ReadFull` hands over what was left, with `io.EOF` if that is
  nothing and `io.ErrUnexpectedEOF` otherwise.
* `Item.readOp_cut` — the read of a value of which only `k` bytes are left.
* `readRun_latched` — after a latched error, the reads of values change nothing.
* `cut_stream_latches` — over a `*BytesReader` holding the values' bytes cut inside one of them.
-/

namespace Codec

variable {ρ τ φ : Type}

/-- A source whose `ReadByte` with nothing left returns `io.EOF` and stays at the end. -/
def ReaderPro.ByteEnds (p : ReaderPro ρ) (ok : ρ → Prop) (view : ρ → List UInt8) : Prop :=
  ∀ s, ok s → view s = [] →
    (p.readByte s).1.2 = some .eof ∧ ok (p.readByte s).2 ∧ view (p.readByte s).2 = []

/-- A `*BytesReader` at its end returns `io.EOF` from `ReadByte`. -/
theorem BytesReader.pro_byteEnds : BytesReader.pro.ByteEnds (fun r => 0 ≤ r.n) BytesReader.rest :=
  fun r h hv => by
    obtain ⟨he, hv'⟩ := BytesReader.Valid.byteDelivers.at_end ⟨r, h⟩ hv
    exact ⟨he, Int.le_trans h (BytesReader.readByte_n_ge r), hv'⟩

namespace Item

/-- The error the read of the item latches when only `k` of its bytes are left: `ReadByte`, and
`io.ReadFull` with nothing there, see `io.EOF`; `readFull` reports `io.ErrUnexpectedEOF`, and so
does `io.ReadFull` with some bytes there. -/
def cutErr (k : Nat) : Item → GoErr
  | bool _ | uint8 _ | int8 _ => .eof
  | bytes _ => if k = 0 then .eof else .unexpectedEOF
  | uint16 _ | uint32 _ | uint64 _ | int16 _ | int32 _ | int64 _ => .unexpectedEOF

/-- The read as the cut leaves it: `ReadBytesTo`'s destination holds the `k` bytes that came, the
other reads keep their destination. -/
def cutRead (k : Nat) : Item → ReaderOp τ φ
  | bytes b => .readBytesTo (b.take k ++ List.replicate (b.length - k) 0)
  | i => i.readOp

/-- The reads of values answer nothing: what they read goes to their destination. -/
@[simp] theorem readOp_answer (p : ReaderPro ρ) (i : Item) (r : Reader) (s : ρ) :
    ((i.readOp : ReaderOp τ φ).exec p r s).1 = .none := by
  cases i <;> rfl

end Item

namespace Reader

variable {p : ReaderPro ρ} {ok : ρ → Prop} {view : ρ → List UInt8}

/-- A read through the typed reader from a source with nothing left gets the source's `io.EOF`,
and the reader latches it. -/
theorem ioReader_read_at_end (h : p.Serves ok view) {r : Reader} (hr : r.err = none) {n : Nat}
    (hn : 0 < n) {s : ρ} (hs : ok s) (hv : view s = []) :
    ok (p.read n s).2 ∧ view (p.read n s).2 = [] ∧
      (ioReader p).read n (r, s) = (⟨[], some .eof⟩, { r with err := some .eof }, (p.read n s).2) := by
  have happ := h.append n s hs
  rw [hv, List.append_eq_nil] at happ
  have he : (p.read n s).1.err = some .eof :=
    (h.clean n s hs).resolve_left (h.progress n s hs hn happ.1)
  refine ⟨h.read_ok n s hs, happ.2, ?_⟩
  simp [ioReader, read, hr, he, happ.1, setError]

/-- **`io.ReadFull`'s loop through the typed reader, short.** Asked for more than the source has
left, from a source that never returns data with `io.EOF`, it takes all that is left, counts it,
and stops at the source's `io.EOF`, which the reader latches. Every round but the last takes a
byte, so one round more than there are bytes is enough. -/
theorem fillLoop_short (h : p.Serves ok view) (he : p.EofAlone ok) (want : Nat) :
    ∀ fuel (acc : List UInt8) (r : Reader) (s : ρ), r.err = none → ok s →
      acc.length + (view s).length < want → (view s).length < fuel →
      ∃ s', ok s' ∧ view s' = [] ∧
        (ioReader p).fillLoop want fuel acc (r, s) =
          (⟨acc ++ view s, some .eof⟩,
            ({ r with count := r.count + (view s).length, err := some .eof }, s'))
  | 0, _, _, _, _, _, _, hf => by omega
  | fuel + 1, acc, r, s, hr, hs, hw, hf => by
    have hlt : acc.length < want := by omega
    by_cases hv : view s = []
    · obtain ⟨hs', hv', e⟩ := ioReader_read_at_end h hr (show 0 < want - acc.length by omega) hs hv
      refine ⟨_, hs', hv', ?_⟩
      rw [IoReader.fillLoop, if_pos hlt, e]
      simp [hv]
    -- with bytes left the read cannot return `io.EOF`: that comes alone and leaves nothing
    have happ := h.append (want - acc.length) s hs
    have herr : (p.read (want - acc.length) s).1.err = none := by
      refine (h.clean _ s hs).resolve_right fun e => hv ?_
      rw [he _ s hs e, h.eof_at_end _ s hs e, List.append_nil] at happ
      exact happ.symm
    have hne := List.length_pos.mpr fun hb => h.progress _ s hs (by omega) hb herr
    have hlen := congrArg List.length happ
    rw [List.length_append] at hlen
    obtain ⟨s', hs', hv', e⟩ := fillLoop_short h he want fuel
      (acc ++ (p.read (want - acc.length) s).1.bytes)
      { r with count := r.count + (p.read (want - acc.length) s).1.bytes.length }
      (p.read (want - acc.length) s).2 hr (h.read_ok _ s hs)
      (by rw [List.length_append]; omega) (by omega)
    refine ⟨s', hs', hv', ?_⟩
    rw [IoReader.fillLoop, if_pos hlt, ioReader_read_of_ok hr herr, if_pos rfl, e,
      List.append_assoc, happ, ← hlen]
    simp only [Nat.cast_add, Int.add_assoc]

/-- **`io.ReadFull` through the typed reader, short**, hands over all that was left, with
`io.EOF` if that is nothing and `io.ErrUnexpectedEOF` otherwise; the reader has latched the
source's `io.EOF`. -/
theorem readFull_short (h : p.Serves ok view) (he : p.EofAlone ok) {r : Reader}
    (hr : r.err = none) {s : ρ} (hs : ok s) {n : Nat} (hn : (view s).length < n) :
    ∃ s', ok s' ∧ view s' = [] ∧
      (ioReader p).readFull n (r, s) =
        (⟨view s, some (if view s = [] then .eof else .unexpectedEOF)⟩,
          ({ r with count := r.count + (view s).length, err := some .eof }, s')) := by
  obtain ⟨s', hs', hv', e⟩ := fillLoop_short h he n (n + 1) [] r s hr hs (by simpa using hn)
    (by omega)
  refine ⟨s', hs', hv', ?_⟩
  have hn0 : n ≠ 0 := by omega
  by_cases hv : view s = [] <;> simp [IoReader.readFull, e, hv, hn0, not_le.mpr hn]

/-- The typed `readFull(n)` with fewer than `n` bytes left latches `io.ErrUnexpectedEOF`. -/
theorem readFull_of_short (h : p.Serves ok view) (he : p.EofAlone ok) {r : Reader}
    (hr : r.err = none) {s : ρ} (hs : ok s) {n : Nat} (hn : (view s).length < n) :
    ∃ s', ok s' ∧ view s' = [] ∧
      readFull p n r s =
        (none, { r with count := r.count + (view s).length, err := some .unexpectedEOF }, s') := by
  obtain ⟨s', hs', hv', e⟩ := readFull_short h he hr hs hn
  refine ⟨s', hs', hv', ?_⟩
  by_cases hv : view s = [] <;> simp [readFull, hr, e, hv]

/-- The wider reads with fewer than their `k` bytes left keep their destination. -/
theorem getWord_of_short (h : p.Serves ok view) (he : p.EofAlone ok) {r : Reader}
    (hr : r.err = none) {s : ρ} (hs : ok s) {k : Nat} (hn : (view s).length < k) :
    ∃ s', ok s' ∧ view s' = [] ∧ ∀ {α : Type} (conv : Nat → α) (dest : α),
      getWord p k conv dest r s =
        (dest, { r with count := r.count + (view s).length, err := some .unexpectedEOF }, s') := by
  obtain ⟨s', hs', hv', e⟩ := readFull_of_short h he hr hs hn
  exact ⟨s', hs', hv', fun _ _ => by simp [getWord, e]⟩

/-- `ReadBytesTo` with fewer bytes left than its destination holds: they go to the front of it,
and `io.ReadFull`'s error is latched. -/
theorem readBytesTo_of_short (h : p.Serves ok view) (he : p.EofAlone ok) {r : Reader}
    (hr : r.err = none) {s : ρ} (hs : ok s) {dest : List UInt8} (hn : (view s).length < dest.length) :
    ∃ s', ok s' ∧ view s' = [] ∧
      readBytesTo p dest r s =
        (view s ++ dest.drop (view s).length,
          { r with count := r.count + (view s).length,
                   err := some (if view s = [] then .eof else .unexpectedEOF) }, s') := by
  obtain ⟨s', hs', hv', e⟩ := readFull_short h he hr hs hn
  refine ⟨s', hs', hv', ?_⟩
  have hd : dest ≠ [] := List.ne_nil_of_length_pos (by omega)
  simp [readBytesTo, hr, hd, e]

/-- The one-byte reads with nothing left latch `ReadByte`'s `io.EOF`. -/
theorem getByte_at_end (hb : p.ByteEnds ok view) {r : Reader} (hr : r.err = none) {s : ρ}
    (hs : ok s) (hv : view s = []) :
    ok (p.readByte s).2 ∧ view (p.readByte s).2 = [] ∧ (p.readByte s).1.2 = some .eof ∧
      getByte p r s = ((p.readByte s).1, { r with err := some .eof }, (p.readByte s).2) := by
  obtain ⟨he, hs', hv'⟩ := hb s hs hv
  exact ⟨hs', hv', he, by simp [getByte, hr, he]⟩

end Reader

namespace Item

variable {p : ReaderPro ρ} {ok : ρ → Prop} {view : ρ → List UInt8}

/-- **Reading an item cut short.** With no error latched and only the first `k` of the item's
bytes left in a source that never returns data with `io.EOF`, the item's read takes them, counts
them, latches `cutErr k` and leaves its destination as `cutRead k` says. -/
theorem readOp_cut (h : p.Serves ok view) (he : p.EofAlone ok) (hb : p.ByteEnds ok view) (i : Item)
    {r : Reader} (hr : r.err = none) {s : ρ} (hs : ok s) {k : Nat}
    (hk : k < (i.wire r.order).length) (hv : view s = (i.wire r.order).take k) :
    ∃ s', ok s' ∧ view s' = [] ∧
      (i.readOp : ReaderOp τ φ).exec p r s =
        (.none, i.cutRead k, { r with count := r.count + k, err := some (i.cutErr k) }, s') := by
  have hlen : (view s).length = k := by rw [hv, List.length_take]; omega
  cases i with
  | bool v | uint8 v | int8 v =>
    obtain rfl : k = 0 := by simp only [wire, List.length_singleton] at hk; omega
    obtain ⟨hs', hv', he', er⟩ := Reader.getByte_at_end hb hr hs (by simpa using hv)
    refine ⟨_, hs', hv', ?_⟩
    simp [readOp, cutRead, cutErr, ReaderOp.exec, Reader.readBool, Reader.readUint8,
      Reader.readInt8, he', er]
  | bytes b =>
    simp only [wire] at hk hv
    obtain ⟨s', hs', hv', e⟩ := Reader.readBytesTo_of_short h he hr hs
      (show (view s).length < (List.replicate b.length 0).length by rw [List.length_replicate]; omega)
    refine ⟨s', hs', hv', ?_⟩
    have hz : b.take k = [] ↔ k = 0 := by
      rw [List.take_eq_nil_iff]; exact or_iff_left (List.ne_nil_of_length_pos (by omega))
    simp [readOp, cutRead, cutErr, ReaderOp.exec, e, hlen, hv, hz, List.drop_replicate,
      Nat.min_eq_left hk.le, Nat.min_eq_left (Nat.sub_le b.length k)]
  | _ =>
    simp only [wire, ByteOrder.length_put] at hk
    obtain ⟨s', hs', hv', e⟩ := Reader.getWord_of_short h he hr hs (hlen ▸ hk)
    exact ⟨s', hs', hv', by simp [readOp, cutRead, cutErr, ReaderOp.exec, Reader.readUint16,
      Reader.readUint32, Reader.readUint64, Reader.readInt16, Reader.readInt32, Reader.readInt64, e,
      hlen]⟩

end Item

/-- After a latched error the reads of values change nothing and answer nothing. -/
theorem readRun_latched (p : ReaderPro ρ) (r : Reader) (s : ρ) (h : r.err ≠ none) :
    ∀ items : List Item, ReaderOp.run p (items.map Item.readOp : List (ReaderOp τ φ)) r s =
      (items.map fun _ => .none, items.map Item.readOp, r, s)
  | [] => rfl
  | i :: items => by
    have e := (ReaderOp.exec_latched p (i.readOp : ReaderOp τ φ) r s h).1
    simp only [List.map_cons, ReaderOp.run, Item.readOp_answer, e, readRun_latched p r s h items]

/-- Running two lists of calls is running one and then the other. -/
theorem ReaderOp.run_append (p : ReaderPro ρ) (ops₂ : List (ReaderOp τ φ)) :
    ∀ (ops₁ : List (ReaderOp τ φ)) (r : Reader) (s : ρ), ReaderOp.run p (ops₁ ++ ops₂) r s =
      let a := ReaderOp.run p ops₁ r s
      let b := ReaderOp.run p ops₂ a.2.2.1 a.2.2.2
      (a.1 ++ b.1, a.2.1 ++ b.2.1, b.2.2)
  | [], _, _ => rfl
  | op :: ops₁, r, s => by
    rw [List.cons_append, ReaderOp.run, ReaderOp.run, run_append p ops₂ ops₁]
    rfl

/-- **A stream cut inside a value.** A typed `Reader` in byte order `o`, over a `*BytesReader`
holding the bytes of the values `pre` and then the first `k` bytes of the value `i`, short of
all of them, reads `pre`, `i` and any values `post` after it. Every value of `pre` is read back,
`i`'s read leaves its destination as `cutRead k` says, and those of `post` keep theirs; no read
answers anything. The reader has counted every byte it was given and latched `io.EOF` if the cut
falls before a one-byte value or a byte string, and `io.ErrUnexpectedEOF` otherwise; nothing is
left to read. -/
theorem cut_stream_latches (o : ByteOrder) (pre : List Item) (i : Item) (post : List Item) {k : Nat}
    (hk : k < (i.wire o).length) :
    ∃ s, s.rest = [] ∧
      ReaderOp.run BytesReader.pro ((pre ++ i :: post).map Item.readOp : List (ReaderOp Unit Unit))
          ⟨0, none, o⟩ (BytesReader.new (wireOf o pre ++ (i.wire o).take k)) =
        ((pre ++ i :: post).map fun _ => .none,
          pre.map Item.readBack ++ i.cutRead k :: post.map Item.readOp,
          ⟨((wireOf o pre ++ (i.wire o).take k).length : Int), some (i.cutErr k), o⟩, s) := by
  obtain ⟨s₁, hs₁, hv₁, e₁⟩ := readRun_serves (τ := Unit) (φ := Unit) BytesReader.pro_serves pre
    ⟨0, none, o⟩ (BytesReader.new (wireOf o pre ++ (i.wire o).take k)) ((i.wire o).take k) rfl
    (Int.le_refl 0) rfl (Or.inr BytesReader.pro_eofAlone)
  obtain ⟨s₂, hs₂, hv₂, e₂⟩ := Item.readOp_cut (τ := Unit) (φ := Unit) BytesReader.pro_serves
    BytesReader.pro_eofAlone BytesReader.pro_byteEnds i
    (show ({ (⟨0, none, o⟩ : Reader) with count := 0 + ((wireOf o pre).length : Int) }).err = none
      from rfl) hs₁ hk hv₁
  have e₃ := readRun_latched (τ := Unit) (φ := Unit) BytesReader.pro
    ⟨0 + ((wireOf o pre).length : Int) + k, some (i.cutErr k), o⟩ s₂ (by simp) post
  dsimp only at e₁ e₂
  refine ⟨s₂, hv₂, ?_⟩
  rw [List.map_append, ReaderOp.run_append, List.map_cons]
  simp only [e₁, ReaderOp.run, e₂, e₃, List.length_append, List.length_take, Nat.min_eq_left hk.le]
  simp

theorem cut_stream_latches_word :
    ∃ s, s.rest = [] ∧
      ReaderOp.run BytesReader.pro
          (([Item.uint8 7] ++ Item.uint16 0x0102 :: [Item.bool true]).map Item.readOp :
            List (ReaderOp Unit Unit))
          ⟨0, none, .bigEndian⟩
          (BytesReader.new (wireOf .bigEndian [.uint8 7] ++ ((Item.uint16 0x0102).wire .bigEndian).take 1)) =
        (([Item.uint8 7] ++ Item.uint16 0x0102 :: [Item.bool true]).map fun _ => .none,
          [Item.uint8 7].map Item.readBack ++ (Item.uint16 0x0102).cutRead 1 :: [Item.bool true].map Item.readOp,
          ⟨((wireOf .bigEndian [.uint8 7] ++ ((Item.uint16 0x0102).wire .bigEndian).take 1).length : Int),
            some ((Item.uint16 0x0102).cutErr 1), .bigEndian⟩, s) :=
  cut_stream_latches .bigEndian [.uint8 7] (.uint16 0x0102) [.bool true]
    (by simp only [Item.wire, ByteOrder.length_put]; decide)

end Codec
