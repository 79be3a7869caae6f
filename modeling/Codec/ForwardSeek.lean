import Codec.Bufio.Reader

/-!
# The forward seekers (`part_000`)

`forwardSeeker` and `forwardSeekCloser` give a reader that cannot seek a forward-only `Seek`: they
count in `offset` what their reader has handed over through them, and seek forward by
`Discard`ing. The two are the same code (the second also closes its reader, which no modelled
function does), so `ForwardSeekCloser` is `ForwardSeeker`'s methods under the closer's names.

The wrapped reader may be any reader at all. What it hands over is recorded beside its state
(`IoReader.logged`), and one call of either method adds to the offset exactly what it appends to
the record (`read_accounts`, `seek_accounts`).

**Main result** (`forward_seek_offset`): over every reader and every run of `Read` and `Seek`
calls, the offset is the number of bytes the wrapper has taken from its reader; no call lowers it;
and the seeks it refuses return an error and the offset and leave the wrapper and its reader as
they were.
-/

namespace Codec

variable {σ ρ : Type}

namespace ForwardSeeker

variable (src : IoReader σ)

/-- Go's `ForwardSeeker(r)` for a reader that is not an `io.ReadSeeker`. -/
def new (r : σ) : ForwardSeeker σ := ⟨r, 0⟩

/-- The seeks `Seek` refuses before it reads: an unsupported `whence`, a negative `SeekCurrent`
offset, a `SeekStart` target below the offset `cur`. -/
def Refused (offset : Int) (whence : Whence) (cur : Int) : Prop :=
  match whence with
  | .current => offset < 0
  | .start => offset < cur
  | _ => True

/-- One call's bookkeeping: from `fs` to `fs'` the reader recorded `X`, and the offset grew by
`|X|`. -/
def Accounts (log : σ → List UInt8) (fs fs' : ForwardSeeker σ) : Prop :=
  ∃ X, log fs'.r = log fs.r ++ X ∧ fs'.offset = fs.offset + X.length

section Accounting

variable {src} {log : σ → List UInt8}

theorem Accounts.refl (fs : ForwardSeeker σ) : Accounts log fs fs := ⟨[], by simp⟩

theorem Accounts.trans {a b c : ForwardSeeker σ} :
    Accounts log a b → Accounts log b c → Accounts log a c := by
  rintro ⟨X, hX, hn⟩ ⟨Y, hY, hm⟩
  exact ⟨X ++ Y, by rw [hY, hX, List.append_assoc], by rw [hm, hn, List.length_append]; push_cast; omega⟩

theorem Accounts.le {fs fs' : ForwardSeeker σ} : Accounts log fs fs' → fs.offset ≤ fs'.offset := by
  rintro ⟨X, -, hn⟩; omega

/-- A read adds to the offset what the reader hands over. -/
theorem read_accounts (h : src.Records log) (n : Nat) (fs : ForwardSeeker σ) :
    Accounts log fs (fs.read src n).2 :=
  ⟨_, h n fs.r, rfl⟩

/-- A seek leaves the wrapper as it was, or moves it past what one `Discard` of its reader took. -/
theorem seek_cases (off : Int) (wh : Whence) (fs : ForwardSeeker σ) :
    (fs.seek src off wh).2 = fs ∨
      ∃ skip, (fs.seek src off wh).2 = ⟨(discard src skip fs.r).2, fs.offset + (discard src skip fs.r).1.1⟩ := by
  cases wh <;> simp only [seek] <;> repeat' (first | split_ifs | simp only [])
  all_goals first | exact .inl trivial | exact .inl rfl | exact .inr ⟨_, rfl⟩

/-- A seek adds to the offset what its `Discard` took from the reader, if it got that far. -/
theorem seek_accounts (h : src.Records log) (off : Int) (wh : Whence) (fs : ForwardSeeker σ) :
    Accounts log fs (fs.seek src off wh).2 := by
  rcases seek_cases off wh fs with he | ⟨skip, he⟩
  · rw [he]; exact .refl fs
  · obtain ⟨X, h1, h2⟩ := h.discarded skip fs.r
    exact ⟨X, by rw [he, h2], by rw [he, h1]⟩

/-- The seeks `Seek` refuses return an error and the offset, and touch nothing. -/
theorem seek_refused {off : Int} {wh : Whence} {fs : ForwardSeeker σ}
    (hr : Refused off wh fs.offset) :
    (fs.seek src off wh).1.2 ≠ none ∧ (fs.seek src off wh).1.1 = fs.offset ∧
      (fs.seek src off wh).2 = fs := by
  cases wh <;> simp only [Refused] at hr <;> simp [seek, hr]

end Accounting

end ForwardSeeker

/-! ## forwardSeekCloser -/

namespace ForwardSeekCloser

variable (src : IoReader σ)

/-- Go's `forwardSeekCloser.Read`, the body of `forwardSeeker.Read`. -/
def read (n : Nat) (fs : ForwardSeeker σ) : Got × ForwardSeeker σ := fs.read src n

/-- Go's `forwardSeekCloser.Seek`, the body of `forwardSeeker.Seek`. -/
def seek (offset : Int) (whence : Whence) (fs : ForwardSeeker σ) :
    (Int × Option GoErr) × ForwardSeeker σ :=
  fs.seek src offset whence

/-- The closer as an `io.ReadSeeker`. -/
def readSeeker : IoReadSeeker (ForwardSeeker σ) := ⟨read src, seek src⟩

theorem readSeeker_eq : readSeeker src = ForwardSeeker.readSeeker src := rfl

end ForwardSeekCloser

/-! ## Runs of calls -/

/-- A call a caller makes on an `io.ReadSeeker`. -/
inductive SeekCall where
  | read (n : Nat)
  | seek (offset : Int) (whence : Whence)
  deriving DecidableEq, Repr

namespace SeekCall

/-- The state after one call. -/
def exec (rs : IoReadSeeker ρ) : SeekCall → ρ → ρ
  | .read n, s => (rs.read n s).2
  | .seek off wh, s => (rs.seek off wh s).2

/-- The state after a run of calls. -/
def run (rs : IoReadSeeker ρ) : List SeekCall → ρ → ρ
  | [], s => s
  | c :: cs, s => run rs cs (c.exec rs s)

variable {src : IoReader σ} {log : σ → List UInt8}

theorem exec_accounts (h : src.Records log) (c : SeekCall) (fs : ForwardSeeker σ) :
    ForwardSeeker.Accounts log fs (c.exec (ForwardSeeker.readSeeker src) fs) := by
  cases c with
  | read n => exact ForwardSeeker.read_accounts h n fs
  | seek off wh => exact ForwardSeeker.seek_accounts h off wh fs

theorem run_accounts (h : src.Records log) :
    ∀ (cs : List SeekCall) (fs : ForwardSeeker σ),
      ForwardSeeker.Accounts log fs (run (ForwardSeeker.readSeeker src) cs fs)
  | [], fs => .refl fs
  | c :: cs, fs => (exec_accounts h c fs).trans (run_accounts h cs _)

end SeekCall

/-- **The offset counts what the wrapper took.** For `forwardSeeker` and `forwardSeekCloser`
over any reader `r`, started by `ForwardSeeker(r)`: after any run of `Read` and `Seek` calls the
offset is the number of bytes `r` has handed over through the wrapper; each call raises the
offset by exactly what `r` handed over during it, failing or not, so it never lowers it; and a
`Seek` with an unsupported `whence`, a negative `SeekCurrent` offset or a `SeekStart` target below
the offset returns an error with the offset and leaves the wrapper and `r` as they were. -/
theorem forward_seek_offset (r : IoReader σ) (s : σ) (calls : List SeekCall) :
    ∀ rs ∈ [ForwardSeeker.readSeeker r.logged, ForwardSeekCloser.readSeeker r.logged],
      (SeekCall.run rs calls (ForwardSeeker.new (s, []))).offset =
          (SeekCall.run rs calls (ForwardSeeker.new (s, []))).r.2.length ∧
        (∀ (c : SeekCall) (fs : ForwardSeeker (σ × List UInt8)),
          fs.offset ≤ (c.exec rs fs).offset ∧
            ∃ X, (c.exec rs fs).r.2 = fs.r.2 ++ X ∧ (c.exec rs fs).offset = fs.offset + X.length) ∧
        (∀ (off : Int) (wh : Whence) (fs : ForwardSeeker (σ × List UInt8)),
          ForwardSeeker.Refused off wh fs.offset →
            (rs.seek off wh fs).1.2 ≠ none ∧ (rs.seek off wh fs).1.1 = fs.offset ∧
              (rs.seek off wh fs).2 = fs) := by
  intro rs hrs
  obtain rfl : rs = ForwardSeeker.readSeeker r.logged := by
    simpa [ForwardSeekCloser.readSeeker_eq] using hrs
  have hlog := r.logged_records
  refine ⟨?_, fun c fs => ⟨(SeekCall.exec_accounts hlog c fs).le, SeekCall.exec_accounts hlog c fs⟩,
    fun off wh fs hr => ForwardSeeker.seek_refused hr⟩
  obtain ⟨X, hX, hn⟩ := SeekCall.run_accounts hlog calls (ForwardSeeker.new (s, []))
  rw [hn, hX]
  simp [ForwardSeeker.new]

/-- The seeker over three bytes, after `Read(2)` and a refused `Seek(1, io.SeekStart)`. -/
theorem forward_seek_offset_three :
    ForwardSeeker.readSeeker Source.reader.logged ∈
        [ForwardSeeker.readSeeker Source.reader.logged,
          ForwardSeekCloser.readSeeker Source.reader.logged] ∧
      (SeekCall.run (ForwardSeeker.readSeeker Source.reader.logged) [.read 2, .seek 1 .start]
          (ForwardSeeker.new (Source.ofList [1, 2, 3], []))).offset =
          (SeekCall.run (ForwardSeeker.readSeeker Source.reader.logged) [.read 2, .seek 1 .start]
            (ForwardSeeker.new (Source.ofList [1, 2, 3], []))).r.2.length ∧
        (∀ (c : SeekCall) (fs : ForwardSeeker (Source × List UInt8)),
          fs.offset ≤ (c.exec (ForwardSeeker.readSeeker Source.reader.logged) fs).offset ∧
            ∃ X, (c.exec (ForwardSeeker.readSeeker Source.reader.logged) fs).r.2 = fs.r.2 ++ X ∧
              (c.exec (ForwardSeeker.readSeeker Source.reader.logged) fs).offset =
                fs.offset + X.length) ∧
        (∀ (off : Int) (wh : Whence) (fs : ForwardSeeker (Source × List UInt8)),
          ForwardSeeker.Refused off wh fs.offset →
            ((ForwardSeeker.readSeeker Source.reader.logged).seek off wh fs).1.2 ≠ none ∧
              ((ForwardSeeker.readSeeker Source.reader.logged).seek off wh fs).1.1 = fs.offset ∧
              ((ForwardSeeker.readSeeker Source.reader.logged).seek off wh fs).2 = fs) :=
  ⟨List.mem_cons_self _ _, forward_seek_offset Source.reader (Source.ofList [1, 2, 3])
    [.read 2, .seek 1 .start] _ (List.mem_cons_self _ _)⟩

end Codec
