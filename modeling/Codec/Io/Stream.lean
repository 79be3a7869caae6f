import Mathlib.Data.List.Basic
import Mathlib.Data.Int.Order.Basic

/-!
# The Go `io` vocabulary the codec is written against

The library sits between a caller and arbitrary `io.Reader`s and `io.Writer`s, so every result
about it is a result over *every* reader and writer the caller may hand in. This file fixes how
those are modelled.

* `GoErr` — the error values the code compares against (`io.EOF`, the codec's sentinel errors of
  `errors.go`, the `fmt.Errorf("%w: ...")` wrappings) plus `other`, an error of the environment.
* `IoReader σ` / `IoWriter τ` — an interface value is its method over an explicit state: `Read(p)`
  with `len(p) = n` returns the bytes placed in `p[:k]` and an error.
* `Source` — a byte stream that answers each `Read` as a `plan` of `Chunk`s dictates: fewer bytes
  than asked, data together with `io.EOF`, or a failure. Quantifying over the plan is quantifying
  over every chunking an `io.Reader` may choose.
* `Sink` — a writer that accepts what its plan of `Take`s allows; with no plan it accepts all.

The contract every well-behaved reader meets is `IoReader.Delivers`: a read hands over a prefix of
what is left, makes progress unless it fails, and reports `io.EOF` only at the end. `Source`
meets it (`Source.delivers`), and the loops of `Copy.lean` are proved once against it.
-/

namespace Codec

/-! ## Errors -/

/-- The error values of the model. The sentinels are those of `errors.go` and of package `io`
(`invalidWriteResult` is `io`'s own `errInvalidWrite`);
`detail base args` is `fmt.Errorf("%w: ...", base, args...)`, `chained stage e` the chained
reader's `fmt.Errorf("chained action failed ...: %w", e)`, and `other c` any error a reader, writer
or callback of the caller returns. -/
inductive GoErr where
  | eof
  | unexpectedEOF
  | shortWrite
  | shortBuffer
  | noProgress
  | invalidWriteResult
  | nilIO
  | sizeTooSmall
  | alreadyBuffered
  | writeToNil
  | readToNil
  | invalidSeek
  | unsupportedNegativeSeek
  | invalidWhence
  | invalidWrite
  | invalidRead
  | discardNegative
  | trailingData
  | truncatedData
  | detail (base : GoErr) (args : List Int)
  | chained (afterWrite : Bool) (e : GoErr)
  | other (code : Nat)
  deriving DecidableEq, Repr

/-- The `whence` argument of `Seek`; `other` is any value besides the three constants. -/
inductive Whence where
  | start
  | current
  | fromEnd
  | other (v : Int)
  deriving DecidableEq, Repr

/-! ## Interfaces -/

/-- What one `Read(p)` call with `len(p) = n` returns: the bytes it placed in `p[:k]` and its
error. -/
structure Got where
  bytes : List UInt8
  err : Option GoErr
  deriving DecidableEq, Repr

/-- What one `Write(p)` call returns: the reported count (Go's `int`, which a misbehaving writer
may report out of range) and its error. -/
structure Wrote where
  n : Int
  err : Option GoErr
  deriving DecidableEq, Repr

/-- An `io.Reader`: its `Read` method over an explicit state. -/
structure IoReader (σ : Type) where
  read : Nat → σ → Got × σ

/-- An `io.Writer`: its `Write` method over an explicit state. -/
structure IoWriter (τ : Type) where
  write : List UInt8 → τ → Wrote × τ

/-- An `io.ReadSeeker`: `Read` and `Seek(offset, whence)` over one state. -/
structure IoReadSeeker (σ : Type) where
  read : Nat → σ → Got × σ
  seek : Int → Whence → σ → (Int × Option GoErr) × σ

/-- The `io.Reader` of a read-seeker. -/
def IoReadSeeker.toIoReader (rs : IoReadSeeker σ) : IoReader σ := ⟨rs.read⟩

/-! ## The reader contract -/

/-- A reader `r` consumes the bytes `view s` in order: every read hands over a prefix of them and
leaves the rest. -/
structure IoReader.Consumes (r : IoReader σ) (view : σ → List UInt8) : Prop where
  append : ∀ n s, (r.read n s).1.bytes ++ view (r.read n s).2 = view s

/-- A reader `r` delivers the bytes `view s` in order. Besides consuming them, every read hands
over at most what was asked; a read that asks for something either hands over a byte or fails (so
it fails once nothing is left); and `io.EOF` is reported only once nothing is left. These are the
guarantees of the `io.Reader` documentation that the library's loops rely on. -/
structure IoReader.Delivers (r : IoReader σ) (view : σ → List UInt8) extends r.Consumes view :
    Prop where
  length_le : ∀ n s, (r.read n s).1.bytes.length ≤ n
  progress : ∀ n s, 0 < n → (r.read n s).1.bytes = [] → (r.read n s).1.err ≠ none
  eof_at_end : ∀ n s, (r.read n s).1.err = some .eof → view (r.read n s).2 = []

/-- A reader whose only error is `io.EOF`: a stream that ends, and never fails. -/
def IoReader.Clean (r : IoReader σ) : Prop :=
  ∀ n s, (r.read n s).1.err = none ∨ (r.read n s).1.err = some .eof

/-- A reader that hands over all it is asked for while it has it, as in-memory readers do. -/
def IoReader.Fills (r : IoReader σ) (view : σ → List UInt8) : Prop :=
  ∀ n s, (r.read n s).1.bytes = (view s).take n

/-- A reader whose state records what it has handed over: every read appends its bytes to
`log s`. Any reader records into a log kept beside its state (`IoReader.logged`). -/
def IoReader.Records (r : IoReader σ) (log : σ → List UInt8) : Prop :=
  ∀ n s, log (r.read n s).2 = log s ++ (r.read n s).1.bytes

/-- An `io.ByteReader` over the bytes `view s` that only ever ends: `ReadByte` hands over the next
byte and moves past it, and returns `io.EOF` once there is none. -/
structure ByteDelivers (readByte : σ → (UInt8 × Option GoErr) × σ) (view : σ → List UInt8) :
    Prop where
  next : ∀ s b rest, view s = b :: rest → (readByte s).1 = (b, none) ∧ view (readByte s).2 = rest
  at_end : ∀ s, view s = [] → (readByte s).1.2 = some .eof ∧ view (readByte s).2 = []

/-- The reader `r`, with the bytes it has handed over kept beside its state. -/
def IoReader.logged (r : IoReader σ) : IoReader (σ × List UInt8) :=
  ⟨fun n st => let g := r.read n st.1; (g.1, (g.2, st.2 ++ g.1.bytes))⟩

theorem IoReader.logged_records (r : IoReader σ) : r.logged.Records Prod.snd := fun _ _ => rfl

/-- A read-seeker over the bytes `content s`, delivering `view s`: a reader that only ever ends,
whose `Seek` puts it, when it succeeds with `q`, at offset `q` of its content. -/
structure IoReadSeeker.Over (rs : IoReadSeeker σ) (content view : σ → List UInt8) : Prop where
  delivers : rs.toIoReader.Delivers view
  clean : rs.toIoReader.Clean
  seek_ok : ∀ off wh s, (rs.seek off wh s).1.2 = none →
    0 ≤ (rs.seek off wh s).1.1 ∧ view (rs.seek off wh s).2 = (content s).drop (rs.seek off wh s).1.1.toNat

section Delivers

variable {σ : Type} {r : IoReader σ} {view : σ → List UInt8}

theorem IoReader.Consumes.bytes_eq (h : r.Consumes view) (n : Nat) (s : σ) :
    (r.read n s).1.bytes = (view s).take (r.read n s).1.bytes.length := by
  conv_rhs => rw [← h.append n s]
  simp

theorem IoReader.Consumes.view_eq (h : r.Consumes view) (n : Nat) (s : σ) :
    view (r.read n s).2 = (view s).drop (r.read n s).1.bytes.length := by
  conv_rhs => rw [← h.append n s]
  simp

theorem IoReader.Consumes.length_view (h : r.Consumes view) (n : Nat) (s : σ) :
    (view (r.read n s).2).length + (r.read n s).1.bytes.length = (view s).length := by
  rw [← h.append n s, List.length_append]; omega

/-- **Spec of a read.** It hands over the next `k` bytes of the view and leaves the rest. -/
theorem IoReader.Consumes.read_spec (h : r.Consumes view) (n : Nat) (s : σ) :
    ∃ k ≤ (view s).length, (r.read n s).1.bytes = (view s).take k ∧
      view (r.read n s).2 = (view s).drop k := by
  have hv := h.length_view n s
  exact ⟨_, by omega, h.bytes_eq n s, h.view_eq n s⟩

/-- **Spec of a read of a well-behaved reader.** It hands over the next `k` bytes of the view,
at most as many as were asked for, and leaves the rest. -/
theorem IoReader.Delivers.read_spec (h : r.Delivers view) (n : Nat) (s : σ) :
    ∃ k ≤ n, k ≤ (view s).length ∧ (r.read n s).1.bytes = (view s).take k ∧
      view (r.read n s).2 = (view s).drop k := by
  have hv := h.length_view n s
  exact ⟨_, h.length_le n s, by omega, h.bytes_eq n s, h.view_eq n s⟩

/-- A read of a reader with nothing left hands over nothing. -/
theorem IoReader.Consumes.bytes_nil_of_end (h : r.Consumes view) {n : Nat} {s : σ}
    (he : view s = []) : (r.read n s).1.bytes = [] := by
  have := h.length_view n s
  rw [he, List.length_nil] at this
  exact List.length_eq_zero.mp (by omega)

/-- A read that asks for a byte of a reader that only ever ends hands over a byte while any
is left. -/
theorem IoReader.Delivers.bytes_ne_nil (h : r.Delivers view) (hc : r.Clean) {n : Nat} {s : σ}
    (hn : 0 < n) (hs : view s ≠ []) : (r.read n s).1.bytes ≠ [] := by
  intro hb
  have he := (hc n s).resolve_left (h.progress n s hn hb)
  exact hs (by rw [← h.append n s, hb, h.eof_at_end n s he, List.append_nil])

end Delivers

/-! ## Sources -/

/-- How a stream answers one `Read`: `len` bounds the bytes it hands over (it hands over at least
one while any remain, unless it fails), `eof` says whether `io.EOF` comes together with the last
bytes, and `fail` is an error it returns instead. -/
structure Chunk where
  len : Nat
  eof : Bool
  fail : Option Nat
  deriving DecidableEq, Repr

/-- The number of bytes a chunk hands over when `n` are asked for and `avail` remain. -/
def Chunk.count (c : Chunk) (n avail : Nat) : Nat :=
  min (min n avail) (if c.fail.isSome then c.len else max 1 c.len)

/-- A byte stream over `data`, read from `pos` on, answering its reads as `plan` dictates and,
once the plan is used up, with everything asked for. -/
structure Source where
  data : List UInt8
  pos : Nat
  plan : List Chunk
  deriving DecidableEq, Repr

namespace Source

/-- The bytes still to be read. -/
def rest (s : Source) : List UInt8 := s.data.drop s.pos

/-- A stream at the start of `data` that answers every read in full. -/
def ofList (data : List UInt8) : Source := ⟨data, 0, []⟩

/-- The chunk answering the next read of `n` bytes. -/
def next (s : Source) (n : Nat) : Chunk := s.plan.headD ⟨n, false, none⟩

/-- The error a read returns when it hands over all of `avail` bytes as `c` dictates. -/
def chunkErr (c : Chunk) (k avail : Nat) : Option GoErr :=
  match c.fail with
  | some code => some (.other code)
  | none => if c.eof && k == avail then some .eof else none

/-- The stream's `Read`. At the end it returns `io.EOF` (or the planned failure); otherwise it
hands over `count` bytes. -/
def read (n : Nat) (s : Source) : Got × Source :=
  let c := s.next n
  if s.rest = [] then
    (⟨[], some ((c.fail.map GoErr.other).getD .eof)⟩, { s with plan := s.plan.tail })
  else
    let k := c.count n s.rest.length
    (⟨s.rest.take k, chunkErr c k s.rest.length⟩, { s with pos := s.pos + k, plan := s.plan.tail })

/-- The stream as an `io.Reader`. -/
def reader : IoReader Source := ⟨read⟩

@[simp] theorem reader_read (n : Nat) (s : Source) : reader.read n s = s.read n := rfl

@[simp] theorem read_data (n : Nat) (s : Source) : (s.read n).2.data = s.data := by
  unfold read; split <;> rfl

@[simp] theorem read_plan (n : Nat) (s : Source) : (s.read n).2.plan = s.plan.tail := by
  unfold read; split <;> rfl

@[simp] theorem ofList_rest (data : List UInt8) : (ofList data).rest = data := rfl

theorem rest_eq_nil {s : Source} : s.rest = [] ↔ s.data.length ≤ s.pos := List.drop_eq_nil_iff

theorem drop_rest (s : Source) (k : Nat) : s.rest.drop k = s.data.drop (s.pos + k) := by
  simp [rest, Nat.add_comm]

theorem count_pos {c : Chunk} {n avail : Nat} (hn : 0 < n) (ha : 0 < avail)
    (hc : c.fail = none) : 0 < c.count n avail := by
  simp [Chunk.count, hc]; omega

theorem count_le (c : Chunk) (n avail : Nat) : c.count n avail ≤ min n avail :=
  Nat.min_le_left _ _

/-- A read at the end of the stream hands over nothing and returns its error. -/
theorem read_of_end {n : Nat} {s : Source} (h : s.rest = []) :
    s.read n = (⟨[], some (((s.next n).fail.map GoErr.other).getD .eof)⟩,
      { s with plan := s.plan.tail }) := by
  simp [read, h]

/-- A read before the end hands over the next `count` bytes. -/
theorem read_of_ne {n : Nat} {s : Source} (h : s.rest ≠ []) :
    s.read n = (⟨s.rest.take ((s.next n).count n s.rest.length),
      chunkErr (s.next n) ((s.next n).count n s.rest.length) s.rest.length⟩,
      { s with pos := s.pos + (s.next n).count n s.rest.length, plan := s.plan.tail }) := by
  simp [read, h]

/-- **Spec of a read.** It hands over the next bytes of the stream, at most as many as asked
for, and moves the position past them. -/
theorem read_spec (n : Nat) (s : Source) :
    ∃ k ≤ n, (s.read n).1.bytes = s.rest.take k ∧ (s.read n).2.pos = s.pos + k ∧
      k ≤ s.rest.length := by
  by_cases h : s.rest = []
  · exact ⟨0, Nat.zero_le _, by simp [read_of_end h]⟩
  · have := count_le (s.next n) n s.rest.length
    exact ⟨(s.next n).count n s.rest.length, by omega, by simp [read_of_ne h],
      by simp [read_of_ne h], by omega⟩

theorem read_rest (n : Nat) (s : Source) :
    (s.read n).2.rest = s.rest.drop (s.read n).1.bytes.length := by
  obtain ⟨k, -, hb, hp, hk⟩ := read_spec n s
  rw [drop_rest, rest, hp, read_data, hb, List.length_take, Nat.min_eq_left hk]

/-- **A source is a well-behaved reader of what it has left.** -/
theorem delivers : reader.Delivers rest where
  append n s := by
    obtain ⟨k, -, hb, -, hk⟩ := read_spec n s
    simp only [reader_read]
    rw [read_rest, hb, List.length_take, Nat.min_eq_left hk, List.take_append_drop]
  length_le n s := by
    obtain ⟨k, hk, hb, -, hr⟩ := read_spec n s
    simp only [reader_read, hb, List.length_take]; omega
  progress n s hn hb := by
    simp only [reader_read] at *
    by_cases h : s.rest = []
    · simp [read_of_end h]
    · have ha : 0 < s.rest.length := List.length_pos.mpr h
      rw [read_of_ne h] at hb ⊢
      cases hf : (s.next n).fail with
      | none =>
        have := count_pos hn ha hf
        rcases List.take_eq_nil_iff.mp hb with hb | hb
        · omega
        · exact absurd hb h
      | some code => simp [chunkErr, hf]
  eof_at_end n s he := by
    simp only [reader_read] at *
    rw [read_rest]
    by_cases h : s.rest = []
    · simp [h]
    · rw [read_of_ne h] at he ⊢
      have hk := count_le (s.next n) n s.rest.length
      cases hf : (s.next n).fail <;> simp only [chunkErr, hf] at he
      · split at he
        · simp_all
        · simp at he
      · simp at he

/-- A source whose plan holds no failure never returns anything but `io.EOF`. -/
theorem clean {s : Source} (h : ∀ c ∈ s.plan, c.fail = none) :
    ∀ n, (s.read n).1.err = none ∨ (s.read n).1.err = some .eof := by
  intro n
  have hc : (s.next n).fail = none := by
    unfold next; cases hp : s.plan with
    | nil => rfl
    | cons c cs => exact h c (by simp [hp])
  by_cases h : s.rest = []
  · simp [read_of_end h, hc]
  · simp only [read_of_ne h, chunkErr, hc]; split <;> simp

end Source

/-! ## Sinks -/

/-- How a writer answers one `Write(p)`: it takes `len` bytes at most, reports `report` (or the
count it took), and may fail. -/
structure Take where
  len : Nat
  report : Option Int
  fail : Option Nat
  deriving DecidableEq, Repr

/-- A byte sink holding `out`, answering its writes as `plan` dictates and, once the plan is used
up, accepting everything. -/
structure Sink where
  out : List UInt8
  plan : List Take
  deriving DecidableEq, Repr

namespace Sink

/-- The sink's `Write`. -/
def write (bs : List UInt8) (w : Sink) : Wrote × Sink :=
  match w.plan with
  | [] => (⟨bs.length, none⟩, { w with out := w.out ++ bs })
  | t :: ts =>
    let k := min t.len bs.length
    (⟨t.report.getD k, t.fail.map GoErr.other⟩, ⟨w.out ++ bs.take k, ts⟩)

/-- The sink as an `io.Writer`. -/
def writer : IoWriter Sink := ⟨write⟩

/-- A sink that accepts every write in full. -/
def accepting (out : List UInt8) : Sink := ⟨out, []⟩

@[simp] theorem writer_write (bs : List UInt8) (w : Sink) : writer.write bs w = w.write bs := rfl

@[simp] theorem write_accepting (bs out : List UInt8) :
    (accepting out).write bs = (⟨bs.length, none⟩, accepting (out ++ bs)) := rfl

end Sink

end Codec
