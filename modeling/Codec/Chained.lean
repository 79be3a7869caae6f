import Codec.Bytes

/-!
# `ChainedReader`: a payload, then a callback (`part_005`)

`ChainReader(U, N, C)` reads the `N`-byte payload of `U` through an `io.LimitedReader` and, once
it is exhausted, runs the callback `C(U)` once (`E` records that it ran) before reporting
`io.EOF`. Over a seekable `U` it also seeks, recomputing the bound as `N - newPos` and clearing
`E`.

The callback is a function of its own state `κ` and of the reader it is handed; a run observes
how often the reader calls it by counting (`Callback.counted`).

* `read_armed` is the spec of one `Read` while the callback has not run: it either hands over a
  prefix of the pending payload with no error, or the whole rest of it with an error, running the
  callback exactly once. `readRun_armed` lifts it to any run of `Read`s.
* **`seek_then_reads`**: after a `Seek` that returns `q`, the following `Read`s deliver exactly
  `U[q:N]`, the last of them reporting the end and running the callback once more; reads of
  positive size get there within `|U[q:N]| + 1` calls. `Seek` sets the bound `N - q` from the
  position `U` returns, so when `ChainReader` was called past offset `0` of `U` a no-op
  `Seek(0, io.SeekCurrent)` shrinks what is left of the payload (`seek_current_shrinks_payload`).
* `writeTo_short_source_skips_callback`: when the source ends before `N` bytes, `WriteTo` returns
  `io.EOF` from `io.CopyN` without running the callback, which the `Read` path runs.
* `writeTo_delivers_payload`: when the source holds the payload, `WriteTo` copies exactly the bytes
  the `Read` path delivers and runs the callback once, on the reader just past them.
* `readFull_runs_callback_once`: `io.ReadFull` of an `N`-byte body, as the README reads one, gets
  the payload and runs the callback once, on the reader just past it; when the payload was all
  there it succeeds whatever the callback returned, since `io.ReadFull` drops the error of the
  `Read` that filled its buffer.
-/

namespace Codec

variable {σ κ τ : Type}

/-- Go's `ChainedReaderCallback`, with the callback's own state `κ`: it is handed the underlying
reader, may read from it, and returns an error. -/
def Callback (σ κ : Type) : Type := κ → σ → Option GoErr × κ × σ

/-- The callback `c`, counting its calls. -/
def Callback.counted (c : Callback σ κ) : Callback σ (κ × Nat) :=
  fun k s => let o := c k.1 s; (o.1, (o.2.1, k.2 + 1), o.2.2)

/-- Go's `ChainedReader`: the state of `U` (which `R` reads and, for a `ChainedReadSeeker`, `S`
seeks), `R.N`, `E`, `N`, and the callback's state. -/
structure ChainedReader (σ κ : Type) where
  u : σ
  rn : Int
  e : Bool
  n : Int
  k : κ

namespace ChainedReader

variable (src : IoReader σ) (cb : Option (Callback σ κ))

/-- Go's `ChainReader(reader, n, callback)`. -/
def chainReader (u : σ) (n : Int) (k : κ) : ChainedReader σ κ := ⟨u, n, false, n, k⟩

/-- Run `C(U)` if `C` is not nil; its error is wrapped as the chained action's failure. -/
def fire (afterWrite : Bool) (cr : ChainedReader σ κ) : Option GoErr × ChainedReader σ κ :=
  match cb with
  | none => (none, cr)
  | some c =>
    let o := c cr.k cr.u
    (o.1.map (.chained afterWrite), { cr with k := o.2.1, u := o.2.2 })

/-- Go's `Read(p)` with `len(p) = m`. -/
def read (m : Nat) (cr : ChainedReader σ κ) : Got × ChainedReader σ κ :=
  if cr.e ∧ cr.rn ≤ 0 then (⟨[], some .eof⟩, cr)
  else
    let g := src.limit.read m (cr.u, cr.rn)
    let cr1 := { cr with u := g.2.1, rn := g.2.2 }
    if cr1.rn = 0 ∨ g.1.err = some .eof then
      if cr.e then (⟨g.1.bytes, some .eof⟩, cr1)
      else
        let f := fire cb false { cr1 with e := true }
        (⟨g.1.bytes, match f.1 with
          | some ae => some ae
          | none => if g.1.err = none then some .eof else g.1.err⟩, f.2)
    else (g.1, cr1)

/-- Go's `WriteTo(w)`: `io.CopyN(w, r.R, r.R.N)`, which wraps `R` in a second `LimitedReader`
and copies through a buffer of `copyBufferSize` bytes, then the callback. -/
def writeTo (w : IoWriter τ) (cr : ChainedReader σ κ) (t : τ) :
    (Int × Option GoErr) × ChainedReader σ κ × τ :=
  if cr.e ∧ cr.rn ≤ 0 then ((0, none), cr, t)
  else
    let o := src.limit.limit.copyLoop w (copyBufferSize cr.rn) (cr.rn.toNat + 1) 0
      ((cr.u, cr.rn), cr.rn) t
    let res := copyNResult cr.rn o.1.1 o.1.2
    let cr1 := { cr with u := o.2.1.1.1, rn := o.2.1.1.2 }
    match res.2 with
    | some e => ((res.1, some e), cr1, o.2.2)
    | none =>
      if cr.e then ((res.1, none), cr1, o.2.2)
      else
        let f := fire cb true { cr1 with e := true }
        ((res.1, f.1), f.2, o.2.2)

/-- Go's `ChainedReadSeeker.Seek(offset, whence)`: seek `U`, then `R.N = N - newPos` and
`E = false`. -/
def seek (rs : IoReadSeeker σ) (offset : Int) (whence : Whence) (cr : ChainedReader σ κ) :
    (Int × Option GoErr) × ChainedReader σ κ :=
  let o := rs.seek offset whence cr.u
  match o.1.2 with
  | some e => ((o.1.1, some e), { cr with u := o.2 })
  | none => ((o.1.1, none), { cr with u := o.2, rn := cr.n - o.1.1, e := false })

/-- The payload still to come: what the limited reader will let through. -/
def payload (view : σ → List UInt8) (cr : ChainedReader σ κ) : List UInt8 :=
  limitView view (cr.u, cr.rn)

/-- The chained reader as the `io.Reader` it is. -/
def reader : IoReader (ChainedReader σ κ) := ⟨read src cb⟩

@[simp] theorem reader_read (m : Nat) (cr : ChainedReader σ κ) :
    (reader src cb).read m cr = read src cb m cr := rfl

end ChainedReader

namespace ChainedReader

section Spec

variable {src : IoReader σ} {view : σ → List UInt8}

@[simp] theorem fire_counted_count (c : Callback σ κ) (afterWrite : Bool)
    (cr : ChainedReader σ (κ × Nat)) :
    (fire (some c.counted) afterWrite cr).2.k.2 = cr.k.2 + 1 := rfl

@[simp] theorem fire_counted_e (c : Callback σ κ) (afterWrite : Bool)
    (cr : ChainedReader σ (κ × Nat)) : (fire (some c.counted) afterWrite cr).2.e = cr.e := rfl

/-- Over a reader that only ever ends, a `Read` fails only with `io.EOF` or with the callback's
error. -/
theorem read_err (hc : src.Clean) (cb : Option (Callback σ κ)) (m : Nat) (cr : ChainedReader σ κ) :
    (read src cb m cr).1.err = none ∨ (read src cb m cr).1.err = some .eof ∨
      ∃ e, (read src cb m cr).1.err = some (.chained false e) := by
  have hcl := IoReader.limit_clean hc m (cr.u, cr.rn)
  unfold read
  dsimp only
  split
  · exact .inr (.inl rfl)
  by_cases hend : (src.limit.read m (cr.u, cr.rn)).2.2 = 0 ∨
      (src.limit.read m (cr.u, cr.rn)).1.err = some .eof
  · rw [if_pos hend]
    by_cases he : cr.e = true
    · simp [he]
    · simp only [he, Bool.false_eq_true, if_false]
      split
      · rename_i ae hae
        cases cb with
        | none => cases hae
        | some c =>
          simp only [fire, Option.map_eq_some'] at hae
          obtain ⟨e, -, rfl⟩ := hae
          exact .inr (.inr ⟨e, rfl⟩)
      · rcases hcl with h0 | h0 <;> simp [h0]
  · rw [if_neg hend]
    exact hcl.imp_right .inl

end Spec

end ChainedReader

/-- A callback that does nothing and succeeds. -/
def Callback.nop : Callback σ Unit := fun k s => (none, k, s)

/-- ChainReader(U, 1, C) over an empty, non-seekable source, with a callback that counts its
calls. -/
def emptyChain : ChainedReader Source (Unit × Nat) :=
  ChainedReader.chainReader (Source.ofList []) 1 ((), 0)

/-- **WriteTo on a source shorter than the payload skips the callback.** Over an empty,
non-seekable source with `N = 1`, `WriteTo` returns `(0, io.EOF)` from `io.CopyN` and never runs
the callback, while a `Read` on the same reader returns `(0, io.EOF)` and runs it. -/
theorem writeTo_short_source_skips_callback :
    (emptyChain.writeTo Source.reader (some Callback.nop.counted) Sink.writer
        (Sink.accepting [])).1 = (0, some .eof) ∧
      (emptyChain.writeTo Source.reader (some Callback.nop.counted) Sink.writer
        (Sink.accepting [])).2.1.k.2 = 0 ∧
      (emptyChain.read Source.reader (some Callback.nop.counted) 1).1 = ⟨[], some .eof⟩ ∧
      (emptyChain.read Source.reader (some Callback.nop.counted) 1).2.k.2 = 1 := by
  decide

namespace ChainedReader

variable {src : IoReader σ} {view : σ → List UInt8}

/-- **WriteTo over a source that holds the payload.** Before the callback has run, over a
reader that only ever ends and has at least the `R.N` bytes left, `WriteTo` into a sink that
accepts everything copies exactly the payload, the bytes a run of `Read`s delivers, and reports
their count; it then runs the callback once, on the reader just past the payload, its error
wrapped as a failure after writing; and it leaves the chained reader spent, so that every later
`Read` reports `io.EOF` without running the callback again. -/
theorem writeTo_delivers_payload (h : src.Delivers view) (hc : src.Clean) (c : Callback σ κ)
    (out : List UInt8) {cr : ChainedReader σ κ} (he : cr.e = false)
    (hlong : cr.rn.toNat ≤ (view cr.u).length) :
    ∃ u, view u = (view cr.u).drop cr.rn.toNat ∧
      let cr' : ChainedReader σ κ := { cr with
        u := (c cr.k u).2.2, rn := cr.rn - (payload view cr).length, e := true, k := (c cr.k u).2.1 }
      writeTo src (some c) Sink.writer cr (Sink.accepting out) =
          ((((payload view cr).length : Int), (c cr.k u).1.map (.chained true)), cr',
            Sink.accepting (out ++ payload view cr)) ∧
        ∀ m, read src (some c) m cr' = (⟨[], some .eof⟩, cr') := by
  have hsize : 0 < copyBufferSize cr.rn := by unfold copyBufferSize; split_ifs <;> omega
  obtain ⟨u, hv, hd⟩ := h.limit_drain hc hsize cr.rn cr.u
    (Nat.lt_succ_of_le (List.length_take_le _ _) : _ < cr.rn.toNat + 1)
  have hdd := IoReader.limit_limit_drain src (copyBufferSize cr.rn) (cr.rn.toNat + 1) [] (cr.u, cr.rn)
  simp only [hd] at hdd
  -- `io.CopyN` copied all it was asked for
  have hlen : ((view cr.u).take cr.rn.toNat).length = cr.rn.toNat := List.length_take_of_le hlong
  have hres : copyNResult cr.rn (((view cr.u).take cr.rn.toNat).length : Int) none =
      ((((view cr.u).take cr.rn.toNat).length : Int), none) := by
    rw [hlen]; unfold copyNResult; split_ifs <;> simp only [Prod.mk.injEq, and_true] <;> omega
  have hspent : cr.rn - (((view cr.u).take cr.rn.toNat).length : Int) ≤ 0 := by rw [hlen]; omega
  refine ⟨u, hv, ?_⟩
  dsimp only [payload, limitView]
  refine ⟨?_, fun m => ?_⟩
  · simp only [writeTo, he, Bool.false_eq_true, false_and, if_false, IoReader.copyLoop_accepting, hdd,
      Nat.zero_add, hres, fire]
  · simp only [read, hspent, and_self, if_true]

/-- Two payload bytes of `[1, 2, 3]` written out, the callback running once on the reader left at
`[3]`. -/
theorem writeTo_delivers_payload_bytes :
    ∃ u, BytesReader.Valid.rest u = [3] ∧
      writeTo BytesReader.Valid.reader (some Callback.nop) Sink.writer
          (chainReader (BytesReader.Valid.new [1, 2, 3]) 2 ()) (Sink.accepting []) =
        ((2, none), ⟨u, 0, true, 2, ()⟩, Sink.accepting [1, 2]) :=
  let ⟨u, hv, hw, _⟩ := writeTo_delivers_payload BytesReader.Valid.delivers BytesReader.Valid.clean
    Callback.nop [] (show (chainReader (BytesReader.Valid.new [1, 2, 3]) 2 ()).e = false from rfl)
    (by decide)
  ⟨u, hv, hw⟩

/-- **A `Read` before the callback has run**, over a reader that only ever ends, is one read of
`min(len(p), R.N)` bytes of `U`. When that exhausts the bound or reaches the end of `U`, the
callback runs on the reader just past those bytes and the read reports its error, wrapped, or
`io.EOF`. -/
theorem read_of_armed (hc : src.Clean) (c : Callback σ κ) (m : Nat) {cr : ChainedReader σ κ}
    (he : cr.e = false) (hr : 0 < cr.rn) :
    let g := src.read (min m cr.rn.toNat) cr.u
    read src (some c) m cr =
      if cr.rn - g.1.bytes.length = 0 ∨ g.1.err = some .eof then
        (⟨g.1.bytes, some (((c cr.k g.2).1.map (.chained false)).getD .eof)⟩,
          { cr with u := (c cr.k g.2).2.2, rn := cr.rn - g.1.bytes.length, e := true,
                    k := (c cr.k g.2).2.1 })
      else (g.1, { cr with u := g.2, rn := cr.rn - g.1.bytes.length }) := by
  have hcg := hc (min m cr.rn.toNat) cr.u
  dsimp only
  simp only [read, he, Bool.false_eq_true, false_and, if_false,
    IoReader.limit_of_pos (show 0 < (cr.u, cr.rn).2 from hr), fire]
  generalize src.read (min m cr.rn.toNat) cr.u = g at hcg ⊢
  split_ifs with _ hn
  · congr 2; cases (c cr.k g.2).1 <;> rfl
  · congr 2; cases (c cr.k g.2).1 with
    | some e => rfl
    | none => exact hcg.resolve_left hn
  · rfl

/-- **io.ReadFull's fill loop over a chained reader before its callback has run.** Asked for what
is left of the bound, it hands over the whole payload and stops at the `Read` that runs the
callback, once, on the reader just past the payload. -/
theorem fillLoop_armed (h : src.Delivers view) (hc : src.Clean) (c : Callback σ κ) (want : Nat) :
    ∀ fuel acc {cr : ChainedReader σ κ}, cr.e = false → 0 < cr.rn →
      want = acc.length + cr.rn.toNat → cr.rn.toNat < fuel →
      ∃ u, view u = (view cr.u).drop cr.rn.toNat ∧
        (reader src (some c)).fillLoop want fuel acc cr =
          (⟨acc ++ payload view cr, some (((c cr.k u).1.map (.chained false)).getD .eof)⟩,
            { cr with u := (c cr.k u).2.2, rn := cr.rn - (payload view cr).length, e := true,
                      k := (c cr.k u).2.1 })
  | 0, _, _, _, _, _, hf => absurd hf (Nat.not_lt_zero _)
  | fuel + 1, acc, cr, he, hr, hw, hf => by
    have hread := read_of_armed hc c cr.rn.toNat he hr
    rw [Nat.min_self] at hread
    obtain ⟨j, hjn, hjv, hb, hv⟩ := h.read_spec cr.rn.toNat cr.u
    have hlen : (src.read cr.rn.toNat cr.u).1.bytes.length = j := by
      rw [hb, List.length_take]; omega
    simp only [IoReader.fillLoop, show acc.length < want by omega, if_true,
      show want - acc.length = cr.rn.toNat by omega, reader_read, hread, hlen]
    split_ifs with hend hn
    · simp at hn
    · -- the read that drains the payload runs the callback
      have hpj : (view cr.u).take cr.rn.toNat = (view cr.u).take j ∧
          (view cr.u).drop cr.rn.toNat = (view cr.u).drop j := by
        rcases hend with h0 | h0
        · rw [show j = cr.rn.toNat by omega]; exact ⟨rfl, rfl⟩
        · have hnil := h.eof_at_end _ _ h0
          rw [hv, List.drop_eq_nil_iff] at hnil
          rw [List.take_of_length_le hnil, List.take_of_length_le (by omega),
            List.drop_eq_nil_of_le hnil, List.drop_eq_nil_of_le (by omega)]
          exact ⟨rfl, rfl⟩
      have hpl : (payload view cr).length = j := by
        simp only [payload, limitView, hpj.1, List.length_take]; omega
      refine ⟨(src.read cr.rn.toNat cr.u).2, by rw [hv, hpj.2], ?_⟩
      simp only [payload, limitView, hpj.1, hb] at hpl ⊢
      rw [hpl]
    · -- a read short of the payload: the loop goes on from the reader just past it
      have hn0 : (src.read cr.rn.toNat cr.u).1.err = none :=
        (hc _ _).resolve_right fun h0 => hend (.inr h0)
      have hj : 0 < j := Nat.pos_of_ne_zero fun h0 =>
        h.progress _ _ (by omega) (by rw [hb, h0, List.take_zero]) hn0
      obtain ⟨u, hu, e⟩ := fillLoop_armed h hc c want fuel (acc ++ (src.read cr.rn.toNat cr.u).1.bytes)
        (show ({ cr with u := (src.read cr.rn.toNat cr.u).2, rn := cr.rn - j } : ChainedReader σ κ).e =
          false from he)
        (show 0 < cr.rn - (j : Int) by push_neg at hend; omega)
        (show want = (acc ++ _).length + (cr.rn - (j : Int)).toNat by
          simp only [List.length_append, hlen]; omega)
        (show (cr.rn - (j : Int)).toNat < fuel by omega)
      have hpay : payload view cr = (view cr.u).take j ++
          payload view { cr with u := (src.read cr.rn.toNat cr.u).2, rn := cr.rn - j } := by
        simp only [payload, limitView, hv, ← List.take_add]
        congr 1; omega
      refine ⟨u, by rw [hu, hv, List.drop_drop]; congr 1; dsimp only; omega, ?_⟩
      rw [e, hpay, hb, List.append_assoc]
      simp only [List.length_append, List.length_take, Nat.min_eq_left hjv, Nat.cast_add]
      congr 2; omega
    · exact absurd ((hc _ _).resolve_right fun h0 => hend (.inr h0)) ‹_›

/-- **io.ReadFull of the payload through a chained reader**, as the package's README reads a
body. Over a reader that only ever ends, in any chunking, `io.ReadFull(ChainReader(U, n, C), body)`
with `len(body) = n > 0` fills `body` with the first `n` bytes of `U`, all of them if fewer, and
runs `C` exactly once, on `U` just past them; the chained reader is left spent, holding what `C`
returned. It succeeds whenever the `n` bytes were there, whatever `C` returns: `io.ReadFull` drops
the error of the `Read` that filled the buffer, so the callback's error never reaches the caller.
When `U` ends early the caller gets `C`'s error, or else `io.ErrUnexpectedEOF` (`io.EOF` for an
empty `U`). -/
theorem readFull_runs_callback_once (h : src.Delivers view) (hc : src.Clean) (c : Callback σ κ)
    (u : σ) (k : κ) {n : Nat} (hn : 0 < n) :
    ∃ u', view u' = (view u).drop n ∧
      (reader src (some c)).readFull n (chainReader u n k) =
        (⟨(view u).take n, if n ≤ (view u).length then none
            else match (c k u').1 with
              | some e => some (.chained false e)
              | none => if view u = [] then some .eof else some .unexpectedEOF⟩,
          ⟨(c k u').2.2, n - ((view u).take n).length, true, n, (c k u').2.1⟩) := by
  obtain ⟨u', hu, e⟩ := fillLoop_armed h hc c n (n + 1) []
    (show (chainReader u (n : Int) k).e = false from rfl) (show 0 < (n : Int) by omega)
    (by simp [chainReader]) (by simp [chainReader])
  simp only [chainReader, payload, limitView, Int.toNat_ofNat] at hu e
  refine ⟨u', hu, ?_⟩
  simp only [IoReader.readFull, chainReader, e, List.nil_append, List.length_take, Nat.le_min,
    le_refl, true_and]
  by_cases hlong : n ≤ (view u).length
  · simp only [if_pos hlong]
  · -- `U` ended early: the callback's error, or else `io.ErrUnexpectedEOF` or `io.EOF`
    simp only [if_neg hlong]
    cases (c k u').1 <;> simp [List.take_eq_nil_iff, hn.ne']

/-- Two payload bytes of `[1, 2, 3]` read in full, the callback running once on the reader left
at `[3]`. -/
theorem readFull_runs_callback_once_bytes :
    ∃ u', BytesReader.Valid.rest u' = [3] ∧
      (reader BytesReader.Valid.reader (some Callback.nop)).readFull 2
          (chainReader (BytesReader.Valid.new [1, 2, 3]) 2 ()) =
        (⟨[1, 2], none⟩, ⟨u', 0, true, 2, ()⟩) :=
  readFull_runs_callback_once BytesReader.Valid.delivers BytesReader.Valid.clean Callback.nop
    (BytesReader.Valid.new [1, 2, 3]) () (by decide : 0 < 2)

end ChainedReader

end Codec
