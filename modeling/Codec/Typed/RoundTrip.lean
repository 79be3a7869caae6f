import Codec.Typed.Latch
import Codec.Setup

/-!
# What a typed `Writer` writes, a typed `Reader` reads back

The library's typed streams are two halves of one format: each primitive `Writer` call puts a
value's bytes on the wire (`WriteBool` one byte, `WriteUint16` the byte order's two, `WriteBytes`
the slice), and the matching `Reader` call takes them off. `Item` lists the values, `Item.wire`
their bytes, and `Item.writeOp`, `Item.readOp` the calls of `Latch.lean` that write and read them.

* `writeRun_takes`: over a sink with room, a run of writes takes exactly the values' bytes, counts
  them and latches nothing.
* `readRun_reads`: over a source that holds the values' bytes followed by anything, in any
  chunking, a run of reads leaves each value in its destination and counts the bytes. It latches
  nothing, or `io.EOF` when the source hands over the last of those bytes together with it
  (`readBytes_latches_eof_with_data`), which a source whose `io.EOF` comes alone never does; a
  word's read needs that its own bytes do not come so, as a `bufio.Reader` of more than 8 bytes
  ensures. `readRun_serves` is the case where nothing is latched.
* `writeRun_result_accepting` and `typed_round_trip`: the two composed, through `NewWriterSize`
  over a plain writer and `NewReaderSize` over a `*BytesReader` of what it received.
-/

namespace Codec

variable {ρ τ σ ω φ : Type}

/-! ## The values -/

/-- A value of the typed streams: what one primitive `Writer` call writes and the matching
`Reader` call reads. -/
inductive Item where
  | bool (v : Bool)
  | uint8 (v : UInt8)
  | int8 (v : BitVec 8)
  | uint16 (v : UInt16)
  | uint32 (v : UInt32)
  | uint64 (v : UInt64)
  | int16 (v : BitVec 16)
  | int32 (v : BitVec 32)
  | int64 (v : BitVec 64)
  | bytes (b : List UInt8)
  deriving DecidableEq, Repr

namespace Item

/-- The bytes of an item in the byte order `o`: `1` or `0` for a bool, the byte of an 8-bit value,
the order's bytes of a wider one, and a byte string as it is. -/
def wire (o : ByteOrder) : Item → List UInt8
  | bool v => [bif v then 1 else 0]
  | uint8 v => [v]
  | int8 v => [UInt8.ofNat v.toNat]
  | uint16 v => o.put 2 v.toNat
  | uint32 v => o.put 4 v.toNat
  | uint64 v => o.put 8 v.toNat
  | int16 v => o.put 2 v.toNat
  | int32 v => o.put 4 v.toNat
  | int64 v => o.put 8 v.toNat
  | bytes b => b

/-- The `Writer` call that writes the item. -/
def writeOp : Item → WriterOp σ ω
  | bool v => .writeBool v
  | uint8 v => .writeUint8 v
  | int8 v => .writeInt8 v
  | uint16 v => .writeUint16 v
  | uint32 v => .writeUint32 v
  | uint64 v => .writeUint64 v
  | int16 v => .writeInt16 v
  | int32 v => .writeInt32 v
  | int64 v => .writeInt64 v
  | bytes b => .writeBytes (some b)

/-- The `Reader` call that reads the item, into a zeroed destination of its size. -/
def readOp : Item → ReaderOp τ φ
  | bool _ => .readBool false
  | uint8 _ => .readUint8 0
  | int8 _ => .readInt8 0
  | uint16 _ => .readUint16 0
  | uint32 _ => .readUint32 0
  | uint64 _ => .readUint64 0
  | int16 _ => .readInt16 0
  | int32 _ => .readInt32 0
  | int64 _ => .readInt64 0
  | bytes b => .readBytesTo (List.replicate b.length 0)

/-- The `Reader` call with its destination holding the item: how `readOp` should be left. -/
def readBack : Item → ReaderOp τ φ
  | bool v => .readBool v
  | uint8 v => .readUint8 v
  | int8 v => .readInt8 v
  | uint16 v => .readUint16 v
  | uint32 v => .readUint32 v
  | uint64 v => .readUint64 v
  | int16 v => .readInt16 v
  | int32 v => .readInt32 v
  | int64 v => .readInt64 v
  | bytes b => .readBytesTo b

end Item

/-- The bytes of a run of items, one after another. -/
def wireOf (o : ByteOrder) (items : List Item) : List UInt8 := items.flatMap (Item.wire o)

@[simp] theorem wireOf_nil (o : ByteOrder) : wireOf o [] = [] := rfl

@[simp] theorem wireOf_cons (o : ByteOrder) (i : Item) (items : List Item) :
    wireOf o (i :: items) = i.wire o ++ wireOf o items := rfl

@[simp] theorem wireOf_append (o : ByteOrder) (xs ys : List Item) :
    wireOf o (xs ++ ys) = wireOf o xs ++ wireOf o ys := List.flatMap_append ..

/-! ## The source of a typed reader -/

/-- The source of a typed `Reader` serving the bytes `view s` at the states `ok` picks out: there
`Read` hands over the next bytes, at most as many as asked, and moves past them, fails only with
`io.EOF` and only once nothing is left, and makes progress; `ReadByte` hands over the next byte;
and both land in such a state again. -/
structure ReaderPro.Serves (p : ReaderPro ρ) (ok : ρ → Prop) (view : ρ → List UInt8) : Prop where
  read_ok : ∀ n s, ok s → ok (p.read n s).2
  append : ∀ n s, ok s → (p.read n s).1.bytes ++ view (p.read n s).2 = view s
  length_le : ∀ n s, ok s → (p.read n s).1.bytes.length ≤ n
  progress : ∀ n s, ok s → 0 < n → (p.read n s).1.bytes = [] → (p.read n s).1.err ≠ none
  clean : ∀ n s, ok s → (p.read n s).1.err = none ∨ (p.read n s).1.err = some .eof
  eof_at_end : ∀ n s, ok s → (p.read n s).1.err = some .eof → view (p.read n s).2 = []
  readByte_ok : ∀ s, ok s → ok (p.readByte s).2
  next : ∀ s b rest, ok s → view s = b :: rest →
    (p.readByte s).1 = (b, none) ∧ view (p.readByte s).2 = rest

/-- A source whose `Read` returns `io.EOF` only with no data, as in-memory readers do. -/
def ReaderPro.EofAlone (p : ReaderPro ρ) (ok : ρ → Prop) : Prop :=
  ∀ n s, ok s → (p.read n s).1.err = some .eof → (p.read n s).1.bytes = []

/-- A source whose `Read`s of at most `m` bytes return `io.EOF` only with no data, as a
`bufio.Reader` of more than `m` bytes does: it answers them from its buffer. -/
def ReaderPro.EofAloneUpTo (p : ReaderPro ρ) (ok : ρ → Prop) (m : Nat) : Prop :=
  ∀ n s, ok s → n ≤ m → (p.read n s).1.err = some .eof → (p.read n s).1.bytes = []

section Serves

variable {p : ReaderPro ρ} {ok : ρ → Prop} {view : ρ → List UInt8}

theorem ReaderPro.EofAlone.upTo (he : p.EofAlone ok) (m : Nat) : p.EofAloneUpTo ok m :=
  fun n s hs _ => he n s hs

theorem ReaderPro.EofAloneUpTo.mono {m k : Nat} (he : p.EofAloneUpTo ok m) (hk : k ≤ m) :
    p.EofAloneUpTo ok k :=
  fun n s hs hn => he n s hs (Nat.le_trans hn hk)

/-- **A read of bytes that are there.** Asked for `0 < n ≤ |view s|` bytes, a read hands over the
next `j`, `0 < j ≤ n`, and moves past them; it fails at most with `io.EOF`, and only when it took
all that was left. -/
theorem ReaderPro.Serves.read_next (h : p.Serves ok view) {n : Nat} {s : ρ} (hs : ok s)
    (hn : 0 < n) (hle : n ≤ (view s).length) :
    ∃ j, 0 < j ∧ j ≤ n ∧ (p.read n s).1.bytes = (view s).take j ∧
      view (p.read n s).2 = (view s).drop j ∧
      ((p.read n s).1.err = none ∨ (p.read n s).1.err = some .eof ∧ j = (view s).length) := by
  have happ := h.append n s hs
  have hne : (p.read n s).1.bytes ≠ [] := fun hb => by
    -- nothing handed over is a failure, so `io.EOF`, which leaves nothing: the view was empty
    have he := (h.clean n s hs).resolve_left (h.progress n s hs hn hb)
    rw [hb, h.eof_at_end n s hs he] at happ
    rw [← happ] at hle; simp at hle; omega
  refine ⟨(p.read n s).1.bytes.length, List.length_pos.mpr hne, h.length_le n s hs, ?_, ?_, ?_⟩
  · rw [← happ]; exact (List.take_left' rfl).symm
  · rw [← happ]; exact (List.drop_left' rfl).symm
  · refine (h.clean n s hs).imp_right fun he => ⟨he, ?_⟩
    rw [← happ, h.eof_at_end n s hs he, List.append_nil]

end Serves

/-- **A `*BytesReader` serves what it has left**, at every position not below zero. -/
theorem BytesReader.pro_serves : BytesReader.pro.Serves (fun r => 0 ≤ r.n) BytesReader.rest where
  read_ok k r h := Int.le_trans h (BytesReader.read_n_ge k r)
  append k r h := BytesReader.Valid.delivers.append k ⟨r, h⟩
  length_le k r h := BytesReader.Valid.delivers.length_le k ⟨r, h⟩
  progress k r h := BytesReader.Valid.delivers.progress k ⟨r, h⟩
  clean k r h := BytesReader.Valid.clean k ⟨r, h⟩
  eof_at_end k r h := BytesReader.Valid.delivers.eof_at_end k ⟨r, h⟩
  readByte_ok r h := Int.le_trans h (BytesReader.readByte_n_ge r)
  next r b rest h := BytesReader.Valid.byteDelivers.next ⟨r, h⟩ b rest

/-- A `*BytesReader` returns `io.EOF` only once nothing is left, with no data. -/
theorem BytesReader.pro_eofAlone : BytesReader.pro.EofAlone (fun r => 0 ≤ r.n) := by
  intro k r h he
  have e := (BytesReader.read_spec k h).1
  simp only [BytesReader.pro, e] at he ⊢
  by_cases hr : r.rest = [] <;> simp_all

/-! ## The reader's side -/

namespace Reader

variable {p : ReaderPro ρ} {ok : ρ → Prop} {view : ρ → List UInt8}

@[simp] theorem setError_none (r : Reader) : r.setError none = r := by
  cases r; unfold setError; split <;> simp_all

/-- A read through the typed reader with no error latched is the source's read, counted, with
its error latched. -/
theorem ioReader_read {r : Reader} (hr : r.err = none) (n : Nat) (s : ρ) :
    (ioReader p).read n (r, s) =
      (⟨(p.read n s).1.bytes, (p.read n s).1.err⟩,
        { r with count := r.count + (p.read n s).1.bytes.length }.setError (p.read n s).1.err,
        (p.read n s).2) := by
  simp [ioReader, read, setError, hr]

/-- A read through the typed reader, with no error latched and none returned, is the source's
read, counted. -/
theorem ioReader_read_of_ok {r : Reader} (hr : r.err = none) {n : Nat} {s : ρ}
    (he : (p.read n s).1.err = none) :
    (ioReader p).read n (r, s) =
      (⟨(p.read n s).1.bytes, none⟩, { r with count := r.count + (p.read n s).1.bytes.length },
        (p.read n s).2) := by
  rw [ioReader_read hr, he, setError_none]

/-- **`io.ReadFull`'s loop through the typed reader.** With no error latched and the bytes there,
it tops `acc` up to `want` bytes with the next bytes of the source and counts them. It latches
nothing, unless its last read takes all the source has left together with `io.EOF`: then `io.EOF`
is latched, which a source whose reads of that size return `io.EOF` only alone never does. -/
theorem fillLoop_reads (h : p.Serves ok view) (want : Nat) :
    ∀ fuel (acc : List UInt8) (r : Reader) (s : ρ), r.err = none → ok s →
      want < acc.length + fuel → acc.length ≤ want → want - acc.length ≤ (view s).length →
      ∃ s' e, ok s' ∧ view s' = (view s).drop (want - acc.length) ∧
        (e = none ∨ e = some .eof ∧ view s' = []) ∧
        (p.EofAloneUpTo ok (want - acc.length) → e = none) ∧
        (ioReader p).fillLoop want fuel acc (r, s) =
          (⟨acc ++ (view s).take (want - acc.length), e⟩,
            ({ r with count := r.count + (want - acc.length : Nat) }.setError e, s'))
  | 0, acc, _, _, _, _, hf, ha, _ => by omega
  | fuel + 1, acc, r, s, hr, hs, hf, ha, hle => by
    by_cases hlt : acc.length < want
    · obtain ⟨j, hj0, hjn, hb, hv, herr⟩ := h.read_next hs (show 0 < want - acc.length by omega) hle
      have hlen : (p.read (want - acc.length) s).1.bytes.length = j := by
        rw [hb, List.length_take]; omega
      rcases herr with he | ⟨he, hj⟩
      · -- the read brought the next `j` bytes and no error: the loop goes on
        have hvl : (view (p.read (want - acc.length) s).2).length = (view s).length - j := by
          rw [hv, List.length_drop]
        have hacc : (acc ++ (p.read (want - acc.length) s).1.bytes).length = acc.length + j := by
          rw [List.length_append, hlen]
        obtain ⟨s', e, hs', hv', he', hal, ex⟩ := fillLoop_reads h want fuel
          (acc ++ (p.read (want - acc.length) s).1.bytes)
          { r with count := r.count + (p.read (want - acc.length) s).1.bytes.length }
          (p.read (want - acc.length) s).2 hr (h.read_ok _ s hs) (by omega) (by omega) (by omega)
        rw [hacc] at hv' hal ex
        refine ⟨s', e, hs', by rw [hv', hv, List.drop_drop]; congr 1; omega, he',
          fun hw => hal (hw.mono (by omega)), ?_⟩
        rw [IoReader.fillLoop, if_pos hlt, ioReader_read_of_ok hr he, if_pos rfl, ex, hlen, hb, hv,
          List.append_assoc, ← List.take_add,
          show j + (want - (acc.length + j)) = want - acc.length by omega]
        congr 4
        push_cast; omega
      · -- the read took all that was left together with `io.EOF`: the loop stops with it latched
        have hj' : j = want - acc.length := by omega
        refine ⟨_, some .eof, h.read_ok _ s hs, by rw [hv, hj'], .inr ⟨rfl, by rw [hv, hj, List.drop_length]⟩,
          fun hw => absurd (hw _ s hs le_rfl he) (List.length_pos.mp (by omega)), ?_⟩
        rw [IoReader.fillLoop, if_pos hlt, ioReader_read hr, he, hlen, hb, hj']
        simp
    · refine ⟨s, none, hs, by rw [show want - acc.length = 0 by omega, List.drop_zero], .inl rfl,
        fun _ => rfl, ?_⟩
      rw [IoReader.fillLoop, if_neg hlt, show want - acc.length = 0 by omega]
      simp

/-- **`io.ReadFull` through the typed reader** of `k` bytes that are there hands them over with no
error and counts them; it latches nothing, or `io.EOF` when they are the last and come with it. -/
theorem readFull_reads (h : p.Serves ok view) {r : Reader} (hr : r.err = none) {s : ρ}
    (hs : ok s) {k : Nat} (hle : k ≤ (view s).length) :
    ∃ s' e, ok s' ∧ view s' = (view s).drop k ∧ (e = none ∨ e = some .eof ∧ view s' = []) ∧
      (p.EofAloneUpTo ok k → e = none) ∧
      (ioReader p).readFull k (r, s) =
        (⟨(view s).take k, none⟩, ({ r with count := r.count + k }.setError e, s')) := by
  obtain ⟨s', e, hs', hv, he, hal, ex⟩ := fillLoop_reads h k (k + 1) [] r s hr hs (by simp) (by simp)
    (by simpa using hle)
  simp only [List.length_nil, Nat.sub_zero, List.nil_append] at hv hal ex
  exact ⟨s', e, hs', hv, he, hal, by simp [IoReader.readFull, ex, hle]⟩

/-- **Go's `readFull(k)`** of `k` bytes that are there returns them and counts them; it latches
nothing, or `io.EOF` when they are the last and come with it. -/
theorem readFull_of_reads (h : p.Serves ok view) {r : Reader} (hr : r.err = none) {s : ρ}
    (hs : ok s) {k : Nat} (hle : k ≤ (view s).length) :
    ∃ s' e, ok s' ∧ view s' = (view s).drop k ∧ (e = none ∨ e = some .eof ∧ view s' = []) ∧
      (p.EofAloneUpTo ok k → e = none) ∧
      readFull p k r s = (some ((view s).take k), { r with count := r.count + k }.setError e, s') := by
  obtain ⟨s', e, hs', hv, he, hal, ex⟩ := readFull_reads h hr hs hle
  exact ⟨s', e, hs', hv, he, hal, by simp [readFull, hr, ex]⟩

/-- The one-byte reads' `r.r.ReadByte()` of a byte that is there: handed over and counted. -/
theorem getByte_of_serves (h : p.Serves ok view) {r : Reader} (hr : r.err = none) {s : ρ}
    (hs : ok s) {b : UInt8} {rest : List UInt8} (hv : view s = b :: rest) :
    ok (getByte p r s).2.2 ∧ view (getByte p r s).2.2 = rest ∧
      getByte p r s = ((b, none), { r with count := r.count + 1 }, (p.readByte s).2) := by
  obtain ⟨e1, e2⟩ := h.next s b rest hs hv
  have e : getByte p r s = ((b, none), { r with count := r.count + 1 }, (p.readByte s).2) := by
    simp [getByte, hr, e1]
  rw [e]
  exact ⟨h.readByte_ok s hs, e2, rfl⟩

/-- The wider reads' `readFull(k)` and decoding, of `k` bytes `w` that are there: not the last,
or from a source whose reads of `k` bytes return `io.EOF` only alone. -/
theorem getWord_of_serves {α : Type} (h : p.Serves ok view) {r : Reader} (hr : r.err = none)
    {s : ρ} (hs : ok s) {k : Nat} (conv : Nat → α) (dest : α) {w more : List UInt8}
    (hw : w.length = k) (hv : view s = w ++ more) (hend : more ≠ [] ∨ p.EofAloneUpTo ok k) :
    ∃ s', ok s' ∧ view s' = more ∧
      getWord p k conv dest r s = (conv (r.order.get w), { r with count := r.count + k }, s') := by
  have hlen : (view s).length = k + more.length := by rw [hv, List.length_append, hw]
  obtain ⟨s', e, hs', hv', he, hal, ex⟩ := readFull_of_reads h hr hs (k := k) (by omega)
  rw [hv, ← hw, List.take_left, List.drop_left] at *
  have he0 : e = none := hend.elim (fun hm => he.resolve_right fun ⟨_, h0⟩ => hm (hv' ▸ h0)) hal
  subst he0
  exact ⟨s', hs', hv', by simp [getWord, ex, hr]⟩

end Reader

namespace Item

variable {p : ReaderPro ρ} {ok : ρ → Prop} {view : ρ → List UInt8}

/-- The items with no bytes are the empty byte strings. -/
theorem eq_bytes_nil_of_wire {o : ByteOrder} {i : Item} (h : i.wire o = []) : i = .bytes [] := by
  cases i with
  | bytes b => simpa [wire] using h
  | _ => have := congrArg List.length h; simp [wire, ByteOrder.length_put] at this

/-- **Reading one item back.** With no error latched and the item's bytes next in the source, the
item's read leaves the item in its destination, answers nothing and counts its bytes. It latches
nothing, unless the item is the last thing in the source and the source hands over its last bytes
together with `io.EOF`: then `io.EOF` is latched. A word is read back only if that cannot happen to
it: its bytes are not the last, or the source's reads of at most 8 bytes return `io.EOF` alone. -/
theorem readOp_exec (h : p.Serves ok view) (i : Item) {r : Reader} (hr : r.err = none) {s : ρ}
    (hs : ok s) {more : List UInt8} (hv : view s = i.wire r.order ++ more)
    (hw : more ≠ [] ∨ p.EofAloneUpTo ok 8) :
    ∃ s' e, ok s' ∧ view s' = more ∧ (e = none ∨ e = some .eof ∧ more = []) ∧
      (p.EofAlone ok → e = none) ∧
      (i.readOp : ReaderOp τ φ).exec p r s =
        (.none, i.readBack, { r with count := r.count + (i.wire r.order).length }.setError e, s') := by
  have hw' : ∀ k, k ≤ 8 → more ≠ [] ∨ p.EofAloneUpTo ok k := fun k hk => hw.imp_right (·.mono hk)
  cases i with
  | bool v =>
    obtain ⟨hs', hv', e⟩ := Reader.getByte_of_serves h hr hs hv
    refine ⟨_, none, hs', hv', .inl rfl, fun _ => rfl, ?_⟩
    cases v <;> simp [readOp, readBack, wire, ReaderOp.exec, Reader.readBool, e]
  | uint8 v =>
    obtain ⟨hs', hv', e⟩ := Reader.getByte_of_serves h hr hs hv
    exact ⟨_, none, hs', hv', .inl rfl, fun _ => rfl,
      by simp [readOp, readBack, wire, ReaderOp.exec, Reader.readUint8, e]⟩
  | int8 v =>
    obtain ⟨hs', hv', e⟩ := Reader.getByte_of_serves h hr hs hv
    refine ⟨_, none, hs', hv', .inl rfl, fun _ => rfl, ?_⟩
    have hb : BitVec.ofNat 8 (UInt8.ofNat v.toNat).toNat = v := by
      show BitVec.ofNat 8 (v.toNat % 256) = v
      simp [Nat.mod_eq_of_lt v.isLt]
    simp [readOp, readBack, wire, ReaderOp.exec, Reader.readInt8, e, hb]
  | uint16 v =>
    obtain ⟨s', hs', hv', e⟩ := Reader.getWord_of_serves h hr hs UInt16.ofNat 0
      (ByteOrder.length_put _ _ _) hv (hw' 2 (by decide))
    have hb : UInt16.ofNat (r.order.get (r.order.put 2 v.toNat)) = v :=
      congrArg UInt16.mk (r.order.get_put_bitVec 2 v.toBitVec)
    exact ⟨s', none, hs', hv', .inl rfl, fun _ => rfl,
      by simp [readOp, readBack, wire, ReaderOp.exec, Reader.readUint16, e, hb]⟩
  | uint32 v =>
    obtain ⟨s', hs', hv', e⟩ := Reader.getWord_of_serves h hr hs UInt32.ofNat 0
      (ByteOrder.length_put _ _ _) hv (hw' 4 (by decide))
    have hb : UInt32.ofNat (r.order.get (r.order.put 4 v.toNat)) = v :=
      congrArg UInt32.mk (r.order.get_put_bitVec 4 v.toBitVec)
    exact ⟨s', none, hs', hv', .inl rfl, fun _ => rfl,
      by simp [readOp, readBack, wire, ReaderOp.exec, Reader.readUint32, e, hb]⟩
  | uint64 v =>
    obtain ⟨s', hs', hv', e⟩ := Reader.getWord_of_serves h hr hs UInt64.ofNat 0
      (ByteOrder.length_put _ _ _) hv (hw' 8 le_rfl)
    have hb : UInt64.ofNat (r.order.get (r.order.put 8 v.toNat)) = v :=
      congrArg UInt64.mk (r.order.get_put_bitVec 8 v.toBitVec)
    exact ⟨s', none, hs', hv', .inl rfl, fun _ => rfl,
      by simp [readOp, readBack, wire, ReaderOp.exec, Reader.readUint64, e, hb]⟩
  | int16 v =>
    obtain ⟨s', hs', hv', e⟩ := Reader.getWord_of_serves h hr hs (BitVec.ofNat 16) (0#16)
      (ByteOrder.length_put _ _ _) hv (hw' 2 (by decide))
    exact ⟨s', none, hs', hv', .inl rfl, fun _ => rfl, by simp [readOp, readBack, wire,
      ReaderOp.exec, Reader.readInt16, e, ByteOrder.get_put_bitVec r.order 2 v]⟩
  | int32 v =>
    obtain ⟨s', hs', hv', e⟩ := Reader.getWord_of_serves h hr hs (BitVec.ofNat 32) (0#32)
      (ByteOrder.length_put _ _ _) hv (hw' 4 (by decide))
    exact ⟨s', none, hs', hv', .inl rfl, fun _ => rfl, by simp [readOp, readBack, wire,
      ReaderOp.exec, Reader.readInt32, e, ByteOrder.get_put_bitVec r.order 4 v]⟩
  | int64 v =>
    obtain ⟨s', hs', hv', e⟩ := Reader.getWord_of_serves h hr hs (BitVec.ofNat 64) (0#64)
      (ByteOrder.length_put _ _ _) hv (hw' 8 le_rfl)
    exact ⟨s', none, hs', hv', .inl rfl, fun _ => rfl, by simp [readOp, readBack, wire,
      ReaderOp.exec, Reader.readInt64, e, ByteOrder.get_put_bitVec r.order 8 v]⟩
  | bytes b =>
    by_cases hb : b = []
    · subst hb
      exact ⟨s, none, hs, by simpa [wire] using hv, .inl rfl, fun _ => rfl,
        by simp [readOp, readBack, wire, ReaderOp.exec, Reader.readBytesTo]⟩
    · simp only [wire] at hv ⊢
      have hlen : (view s).length = b.length + more.length := by
        rw [hv, List.length_append]
      obtain ⟨s', e, hs', hv', he, hal, ex⟩ := Reader.readFull_reads h hr hs (k := b.length) (by omega)
      simp only [hv, List.take_left, List.drop_left] at hv' he ex
      refine ⟨s', e, hs', hv', he.imp_right fun ⟨h1, h2⟩ => ⟨h1, hv' ▸ h2⟩,
        fun he' => hal (he'.upTo _), ?_⟩
      simp [readOp, readBack, ReaderOp.exec, Reader.readBytesTo, hr, hb, ex]

end Item

/-- The reads of items with no bytes, the empty byte strings, do nothing, whatever is latched. -/
theorem readRun_silent (p : ReaderPro ρ) {o : ByteOrder} :
    ∀ {items : List Item}, wireOf o items = [] → ∀ (r : Reader) (s : ρ),
      ReaderOp.run p (items.map Item.readOp : List (ReaderOp τ φ)) r s =
        (items.map fun _ => .none, items.map Item.readBack, r, s)
  | [], _, _, _ => rfl
  | i :: items, h, r, s => by
    rw [wireOf_cons, List.append_eq_nil] at h
    rw [List.map_cons, List.map_cons, List.map_cons, Item.eq_bytes_nil_of_wire h.1]
    simp [ReaderOp.run, ReaderOp.exec, Item.readOp, Item.readBack, Reader.readBytesTo,
      readRun_silent p h.2]

/-- **A run of reads gets the items back.** From a typed `Reader` with no error latched, over a
source serving the items' bytes followed by `rest`, in any chunking, reading the items one after
another leaves each in its destination, answers nothing, counts exactly their bytes and leaves
`rest` to be read. It latches nothing, or `io.EOF` when `rest` is empty and the source hands over
the last bytes together with it, which a source whose `io.EOF` comes alone never does. The words
among them need that their last bytes do not come so: `rest` is not empty, or the source's reads of
at most 8 bytes return `io.EOF` alone. -/
theorem readRun_reads {p : ReaderPro ρ} {ok : ρ → Prop} {view : ρ → List UInt8}
    (h : p.Serves ok view) :
    ∀ (items : List Item) (r : Reader) (s : ρ) (rest : List UInt8), r.err = none → ok s →
      view s = wireOf r.order items ++ rest → (rest ≠ [] ∨ p.EofAloneUpTo ok 8) →
      ∃ s' e, ok s' ∧ view s' = rest ∧ (e = none ∨ e = some .eof ∧ rest = []) ∧
        (p.EofAlone ok → e = none) ∧
        ReaderOp.run p (items.map Item.readOp : List (ReaderOp τ φ)) r s =
          (items.map fun _ => .none, items.map Item.readBack,
            { r with count := r.count + (wireOf r.order items).length }.setError e, s')
  | [], r, s, rest, _, hs, hv, _ =>
    ⟨s, none, hs, by simpa using hv, .inl rfl, fun _ => rfl, by simp [ReaderOp.run]⟩
  | i :: items, r, s, rest, hr, hs, hv, hw => by
    obtain ⟨s1, e1, hs1, hv1, he1, hal1, ex1⟩ := Item.readOp_exec (τ := τ) (φ := φ) h i hr hs
      (by rw [hv, wireOf_cons, List.append_assoc])
      (hw.imp_left fun hm => by simp [hm])
    rcases he1 with rfl | ⟨rfl, hnil⟩
    · -- the item latched nothing: read the others
      obtain ⟨s2, e, hs2, hv2, he, hal, ex2⟩ := readRun_reads h items
        { r with count := r.count + (i.wire r.order).length } s1 rest hr hs1 hv1 hw
      refine ⟨s2, e, hs2, hv2, he, hal, ?_⟩
      simp only [List.map_cons, ReaderOp.run, ex1, Reader.setError_none, ex2, wireOf_cons,
        List.length_append, Nat.cast_add, Int.add_assoc]
    · -- `io.EOF` came with the item's last bytes: the others have none, and read nothing
      obtain ⟨hi, hr'⟩ := List.append_eq_nil.mp hnil
      refine ⟨s1, some .eof, hs1, by rw [hv1, hnil, hr'], .inr ⟨rfl, hr'⟩, hal1, ?_⟩
      simp only [List.map_cons, ReaderOp.run, ex1, readRun_silent p hi, wireOf_cons, hi,
        List.append_nil]

/-- A run of reads that latches nothing: its bytes are followed by more, or the source's `io.EOF`
comes alone. -/
theorem readRun_serves {p : ReaderPro ρ} {ok : ρ → Prop} {view : ρ → List UInt8}
    (h : p.Serves ok view) (items : List Item) (r : Reader) (s : ρ) (rest : List UInt8)
    (hr : r.err = none) (hs : ok s) (hv : view s = wireOf r.order items ++ rest)
    (hend : rest ≠ [] ∨ p.EofAlone ok) :
    ∃ s', ok s' ∧ view s' = rest ∧
      ReaderOp.run p (items.map Item.readOp : List (ReaderOp τ φ)) r s =
        (items.map fun _ => .none, items.map Item.readBack,
          { r with count := r.count + (wireOf r.order items).length }, s') := by
  obtain ⟨s', e, hs', hv', he, hal, ex⟩ :=
    readRun_reads h items r s rest hr hs hv (hend.imp_right (·.upTo 8))
  have he0 : e = none := hend.elim (fun hm => he.resolve_right fun ⟨_, h0⟩ => hm h0) hal
  subst he0
  exact ⟨s', hs', hv', by rw [ex, Reader.setError_none]⟩

/-! ## The writer's side -/

/-- A sink that also takes single bytes and empty writes: `WriteByte` of a byte it has room for
succeeds and takes it, and a write of nothing succeeds and takes nothing. -/
structure WriterPro.AppendsBytes (p : WriterPro τ) (v : SinkView τ) : Prop where
  writeByte : ∀ {c : UInt8} {t : τ}, v.Room t 1 →
    (p.writeByte c t).1 = none ∧ v.Takes t [c] (p.writeByte c t).2
  writeNil : ∀ {t : τ}, v.ok t → (p.write [] t).1 = ⟨0, none⟩ ∧ v.Takes t [] (p.write [] t).2

/-- **A `bufio.Writer` over a sink that accepts everything takes single bytes and empty
writes.** -/
theorem BufWriter.pro_appendsBytes (M : Nat) :
    (BufWriter.pro Sink.writer).AppendsBytes (BufWriter.acceptingView M) where
  writeByte {c st} hr := by
    obtain ⟨out, hout⟩ := BufWriter.exists_accepting hr.1.2.2
    obtain ⟨b, t⟩ := st
    simp only at hout
    subst hout
    have hb : b.err = none := hr.1.1
    by_cases hav : b.available = 0
    · have e : (BufWriter.pro Sink.writer).writeByte c (b, Sink.accepting out) =
          (none, { b with buf := [c] }, Sink.accepting (out ++ b.buf)) := by
        simp [BufWriter.pro, BufWriter.writeByte, hb, hav, BufWriter.flush_accepting hb]
      rw [e]
      exact ⟨rfl, ⟨⟨hr.1.1, hr.1.2.1, rfl⟩, by simp [BufWriter.acceptingView, Sink.accepting], rfl⟩⟩
    · have e : (BufWriter.pro Sink.writer).writeByte c (b, Sink.accepting out) =
          (none, { b with buf := b.buf ++ [c] }, Sink.accepting out) := by
        simp [BufWriter.pro, BufWriter.writeByte, hb, hav]
      rw [e]
      exact ⟨rfl, BufWriter.append_takes hr.1 [c]⟩
  writeNil {st} hok := by
    obtain ⟨out, hout⟩ := BufWriter.exists_accepting hok.2.2
    obtain ⟨b, t⟩ := st
    simp only at hout
    subst hout
    have e := BufWriter.writeLoop_fits Sink.writer hok.1 (p := []) (Nat.zero_le _) 2 0
      (Sink.accepting out)
    simp only [List.length_nil, Nat.zero_add, List.append_nil] at e
    refine ⟨by simp [BufWriter.pro, BufWriter.write, e], ?_⟩
    have e' : ((BufWriter.pro Sink.writer).write [] (b, Sink.accepting out)).2 = (b, Sink.accepting out) := by
      simp [BufWriter.pro, BufWriter.write, e]
    rw [e']
    exact .refl hok

namespace Writer

variable {p : WriterPro τ} {v : SinkView τ} {w : Writer} {t : τ}

/-- The one-byte writes' `w.w.WriteByte(b)` into a sink with room: taken and counted. -/
theorem putByte_takes (hb : p.AppendsBytes v) (hw : w.err = none) (hr : v.Room t 1) (c : UInt8) :
    ∃ t', v.Takes t [c] t' ∧ putByte p c w t = (none, { w with count := w.count + 1 }, t') := by
  obtain ⟨h1, h2⟩ := hb.writeByte (c := c) hr
  exact ⟨_, h2, by simp [putByte, hw, h1]⟩

/-- `Write` of a non-nil slice into a sink with room for it, empty or not: taken and counted. -/
theorem write_takes (h : p.Appends v) (hb : p.AppendsBytes v) (hw : w.err = none)
    {b : List UInt8} (hr : v.Room t b.length) :
    ∃ t', v.Takes t b t' ∧ (write p (some b) w t).2 = ({ w with count := w.count + b.length }, t') := by
  by_cases h0 : b = []
  · subst h0
    obtain ⟨h1, h2⟩ := hb.writeNil hr.1
    exact ⟨_, h2, by simp [write, hw, h1]⟩
  · obtain ⟨-, h2, h3⟩ := write_appends h hw hr (List.length_pos.mpr h0)
    exact ⟨_, h3, Prod.ext h2 rfl⟩

end Writer

namespace Item

variable {p : WriterPro τ} {v : SinkView τ}

/-- **Writing one item.** With no error latched and room for the item's bytes, its write takes
exactly them, answers nothing, counts them and latches nothing. -/
theorem writeOp_exec (h : p.Appends v) (hb : p.AppendsBytes v) (i : Item) {w : Writer}
    (hw : w.err = none) {t : τ} (hr : v.Room t (i.wire w.order).length) :
    ∃ t', v.Takes t (i.wire w.order) t' ∧
      (i.writeOp : WriterOp σ ω).exec p w t =
        (.none, i.writeOp, { w with count := w.count + (i.wire w.order).length }, t') := by
  cases i <;> simp only [wire] at hr ⊢
  case bool x =>
    obtain ⟨t', ht, e⟩ := Writer.putByte_takes hb hw hr (bif x then 1 else 0)
    exact ⟨t', ht, by simp [writeOp, WriterOp.exec, Writer.writeBool, e]⟩
  case uint8 x =>
    obtain ⟨t', ht, e⟩ := Writer.putByte_takes hb hw hr x
    exact ⟨t', ht, by simp [writeOp, WriterOp.exec, Writer.writeUint8, e]⟩
  case int8 x =>
    obtain ⟨t', ht, e⟩ := Writer.putByte_takes hb hw hr (UInt8.ofNat x.toNat)
    exact ⟨t', ht, by simp [writeOp, WriterOp.exec, Writer.writeInt8, e]⟩
  case bytes b =>
    obtain ⟨t', ht, e⟩ := Writer.write_takes h hb hw hr
    exact ⟨t', ht, by simp [writeOp, WriterOp.exec, Writer.writeBytes, hw, e]⟩
  all_goals
    obtain ⟨t', ht, e⟩ := Writer.write_takes h hb hw hr
    refine ⟨t', ht, ?_⟩
    simp only [ByteOrder.length_put] at e
    simp [writeOp, WriterOp.exec, Writer.writeUint16, Writer.writeUint32, Writer.writeUint64,
      Writer.writeInt16, Writer.writeInt32, Writer.writeInt64, Writer.putWord, hw, e]

end Item

/-- **A run of writes takes exactly the items' bytes.** From a typed `Writer` with no error
latched, over a sink with room for them, writing the items one after another answers nothing,
hands the sink exactly their bytes in order, counts them and latches nothing. -/
theorem writeRun_takes {p : WriterPro τ} {v : SinkView τ} (h : p.Appends v)
    (hb : p.AppendsBytes v) :
    ∀ (items : List Item) (w : Writer) (t : τ), w.err = none →
      v.Room t (wireOf w.order items).length →
      ∃ t', v.Takes t (wireOf w.order items) t' ∧
        WriterOp.run p (items.map Item.writeOp : List (WriterOp σ ω)) w t =
          (items.map fun _ => .none, items.map Item.writeOp,
            { w with count := w.count + (wireOf w.order items).length }, t')
  | [], w, t, _, hr => ⟨t, .refl hr.1, by simp [WriterOp.run]⟩
  | i :: items, w, t, hw, hr => by
    rw [wireOf_cons, List.length_append] at hr
    obtain ⟨t1, ht1, e1⟩ := Item.writeOp_exec (σ := σ) (ω := ω) h hb i hw (hr.mono (by omega))
    obtain ⟨t2, ht2, e2⟩ := writeRun_takes h hb items
      { w with count := w.count + (i.wire w.order).length } t1 hw (ht1.room hr)
    refine ⟨t2, ht1.trans ht2, ?_⟩
    simp only [List.map_cons, WriterOp.run, e1, e2, wireOf_cons, List.length_append, Nat.cast_add,
      Int.add_assoc]

/-! ## The round trip -/

/-- **The writer's half of the round trip.** A `Writer` in byte order `o` over a `bufio.Writer` of
any size, over a sink that accepts everything, writes the items and ends with `Result`: every write
answers no error, `Result` reports the items' byte count and no error, and the sink holds exactly
those bytes. -/
theorem writeRun_result_accepting (o : ByteOrder) (size : Int) (items : List Item) :
    ∃ w t,
      WriterOp.run (BufWriter.pro Sink.writer) (items.map Item.writeOp : List (WriterOp Unit Unit))
          ⟨0, none, 0, o⟩ (BufWriter.new size, Sink.accepting []) =
        (items.map fun _ => .none, items.map Item.writeOp, w, t) ∧
      (w.result (BufWriter.pro Sink.writer) t).1 = (((wireOf o items).length : Int), none) ∧
      (w.result (BufWriter.pro Sink.writer) t).2.2.2 = Sink.accepting (wireOf o items) := by
  let M := (wireOf o items).length
  have hok : (BufWriter.acceptingView M).ok (BufWriter.new size, Sink.accepting []) :=
    ⟨rfl, by show 0 < (BufWriter.new size).size; unfold BufWriter.new; dsimp only; split <;> omega, rfl⟩
  obtain ⟨t, ht, ew⟩ := writeRun_takes (σ := Unit) (ω := Unit) (BufWriter.pro_appends M)
    (BufWriter.pro_appendsBytes M) items ⟨0, none, 0, o⟩ (BufWriter.new size, Sink.accepting []) rfl
    ⟨hok, by simp [M, BufWriter.acceptingView, BufWriter.new, Sink.accepting]⟩
  let w : Writer := { count := 0 + ((wireOf o items).length : Int), err := none, depth := 0, order := o }
  obtain ⟨e1, -, ht'⟩ := Writer.result_appends (BufWriter.pro_appends M) (w := w) rfl ht.ok
  have hfl := Writer.result_flushed (BufWriter.pro_appends M) (w := w) rfl rfl ht.ok
  refine ⟨w, t, ew, by simpa using e1, ?_⟩
  obtain ⟨hok', hc, -⟩ := ht.trans ht'
  obtain ⟨out, hout⟩ := BufWriter.exists_accepting hok'.2.2
  have hb : (w.result (BufWriter.pro Sink.writer) t).2.2.1.buf = [] := hfl
  simp only [BufWriter.acceptingView, hout, hb, Sink.accepting, BufWriter.new, List.append_nil,
    List.nil_append] at hc
  rw [hout, hc]

/-- **What the typed writer writes, the typed reader reads back.** A `Writer` in byte order `o`
over a `bufio.Writer` of any size, over a sink that accepts everything, writes the items and
ends with `Result`: every write answers no error, `Result` reports the items' byte count and no
error, and the sink holds exactly those bytes. A `Reader` in the same order over a `*BytesReader`
of them reads every item back, in order, with no error, counts every byte and leaves nothing. -/
theorem typed_round_trip (o : ByteOrder) (size : Int) (items : List Item) :
    ∃ w t r s,
      WriterOp.run (BufWriter.pro Sink.writer) (items.map Item.writeOp : List (WriterOp Unit Unit))
          ⟨0, none, 0, o⟩ (BufWriter.new size, Sink.accepting []) =
        (items.map fun _ => .none, items.map Item.writeOp, w, t) ∧
      (w.result (BufWriter.pro Sink.writer) t).1 = (((wireOf o items).length : Int), none) ∧
      (w.result (BufWriter.pro Sink.writer) t).2.2.2 = Sink.accepting (wireOf o items) ∧
      ReaderOp.run BytesReader.pro (items.map Item.readOp : List (ReaderOp Unit Unit))
          ⟨0, none, o⟩ (BytesReader.new (wireOf o items)) =
        (items.map fun _ => .none, items.map Item.readBack, ⟨r, none, o⟩, s) ∧
      r = (wireOf o items).length ∧ s.rest = [] := by
  obtain ⟨w, t, ew, e1, e2⟩ := writeRun_result_accepting o size items
  obtain ⟨s, hs, hv, er⟩ := readRun_serves (τ := Unit) (φ := Unit) BytesReader.pro_serves items
    ⟨0, none, o⟩ (BytesReader.new (wireOf o items)) [] rfl (Int.le_refl 0) (by simp)
    (Or.inr BytesReader.pro_eofAlone)
  exact ⟨w, t, _, s, ew, e1, e2, by simpa using er, by simp, hv⟩

end Codec
