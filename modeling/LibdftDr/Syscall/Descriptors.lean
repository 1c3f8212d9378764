import LibdftDr.Library.Simulation
import LibdftDr.Syscall.Hooks

/-!
# System call descriptors

A descriptor says how many arguments a system call has, whether they are saved, through which of
them the kernel writes, and which callbacks there are. `SyscallRow.Ok` is what the dispatch relies
on: a call with a callback, or one that writes through its arguments, is let through by the filter,
and callbacks and the default cleanup use arguments that are saved. Callbacks can be set and
cleared in any order without breaking it (`InOrder.run`).
-/
namespace LibdftDr
open Library

/-- The types whose sizes stand in the table. -/
inductive CType where
  | aioContextT | epollEvent | fdSet | fileHandle | getcpuCache | gidT | gitT | int | iocb
  | ioEvent | itimerspec | itimerval | kexecSegment | linuxDirent | loffT | mmsghdr | mqAttr
  | msgbuf | msghdr | msqidDs | offT | perfEventAttr | pollfd | rlimit | robustListHead | rusage
  | schedAttr | schedParam | sembuf | shmidDs | sigaction | sigevent | siginfoT | sigsetT
  | sizeT | sockaddr | stackT | stat | statfs | sysctlArgs | sysinfo | timerT | timespec | timeT
  | timeval | timex | timezone | u32 | uidT | unsigned | unsignedChar | unsignedInt
  | unsignedLong | ustat | utsname
  deriving DecidableEq

/-- An entry of `map_args`: 0, or `sizeof` a type. -/
abbrev MapArg := Option CType

/-- `map_args`, without the zeros at the end. -/
def maps (args : List MapArg) : Fin 6 → MapArg := fun i => args.getD i none

/-- `syscall_desc_t`, with callbacks `κ`. -/
structure SyscallRow (κ : Type) where
  nargs : ℕ
  saveArgs : ℕ
  retvalArgs : ℕ
  mapArgs : Fin 6 → MapArg
  pre : Option κ
  post : Option κ

variable {κ : Type}

namespace SyscallRow

/-- `save_args | retval_args`, as a condition. -/
def Saved (d : SyscallRow κ) : Prop := d.saveArgs ||| d.retvalArgs ≠ 0

instance (d : SyscallRow κ) : Decidable d.Saved := inferInstanceAs (Decidable (_ ≠ _))

/-- What the dispatch relies on, for callbacks that read the first `argsRead` arguments. -/
structure Ok (argsRead : κ → ℕ) (d : SyscallRow κ) : Prop where
  nargs : d.nargs ≤ 6
  mapped : ∀ i, d.mapArgs i ≠ none → i.val < d.nargs ∧ d.retvalArgs ≠ 0
  hooked : d.pre ≠ none ∨ d.post ≠ none → d.saveArgs ≠ 0
  pre : ∀ c ∈ d.pre, argsRead c ≤ d.nargs
  post : ∀ c ∈ d.post, argsRead c ≤ d.nargs

instance [DecidableEq κ] (argsRead : κ → ℕ) (d : SyscallRow κ) : Decidable (d.Ok argsRead) :=
  decidable_of_iff
    (d.nargs ≤ 6 ∧ (∀ i, d.mapArgs i ≠ none → i.val < d.nargs ∧ d.retvalArgs ≠ 0) ∧
      (d.pre ≠ none ∨ d.post ≠ none → d.saveArgs ≠ 0) ∧ (∀ c ∈ d.pre, argsRead c ≤ d.nargs) ∧
      ∀ c ∈ d.post, argsRead c ≤ d.nargs)
    ⟨fun ⟨a, b, c, e, f⟩ => ⟨a, b, c, e, f⟩, fun h => ⟨h.1, h.2, h.3, h.4, h.5⟩⟩

/-- What `event_post_syscall` does for a row without a hook. -/
def desc (sizeof : CType → UINT64) (d : SyscallRow κ) : SyscallDesc where
  nargs := d.nargs
  mapArgs i := (d.mapArgs i).elim 0 sizeof

end SyscallRow

/-! ## Callbacks are set and cleared -/

def syscallSetPre (pre : Option κ) (d : SyscallRow κ) : ℕ × SyscallRow κ :=
  match pre with
  | none => (1, d)
  | some c => (0, { d with pre := some c, saveArgs := 1 })

def syscallSetPost (post : Option κ) (d : SyscallRow κ) : ℕ × SyscallRow κ :=
  match post with
  | none => (1, d)
  | some c => (0, { d with post := some c, saveArgs := 1 })

def syscallClrPre (d : SyscallRow κ) : ℕ × SyscallRow κ :=
  (0, { d with pre := none, saveArgs := if d.post.isNone then 0 else d.saveArgs })

def syscallClrPost (d : SyscallRow κ) : ℕ × SyscallRow κ :=
  (0, { d with post := none, saveArgs := if d.pre.isNone then 0 else d.saveArgs })

inductive DescriptorChange (κ : Type) where
  | setPre (pre : Option κ) | setPost (post : Option κ) | clrPre | clrPost

namespace DescriptorChange

def run : DescriptorChange κ → SyscallRow κ → ℕ × SyscallRow κ
  | .setPre pre => syscallSetPre pre
  | .setPost post => syscallSetPost post
  | .clrPre => syscallClrPre
  | .clrPost => syscallClrPost

/-- The callback that it installs. -/
def installs : DescriptorChange κ → Option κ
  | .setPre c | .setPost c => c
  | .clrPre | .clrPost => none

end DescriptorChange

/-- A call for a row of the table; `none` is `NULL`. -/
structure DescriptorCall (κ : Type) where
  desc : Option ℕ
  change : DescriptorChange κ

/-- The result, which is 1 for `NULL`, and the table after the call. -/
def DescriptorCall.run (call : DescriptorCall κ) (table : List (SyscallRow κ)) :
    ℕ × List (SyscallRow κ) :=
  match call.desc with
  | none => (1, table)
  | some i =>
    match table[i]? with
    | none => (1, table)
    | some d => ((call.change.run d).1, table.set i (call.change.run d).2)

/-! ## What every sequence of calls keeps -/

namespace SyscallRow

variable {argsRead : κ → ℕ} {d e : SyscallRow κ} {change : DescriptorChange κ}

/-- What the calls do not change. -/
structure SameShape (d e : SyscallRow κ) : Prop where
  nargs : e.nargs = d.nargs
  retvalArgs : e.retvalArgs = d.retvalArgs
  mapArgs : e.mapArgs = d.mapArgs

theorem SameShape.refl (d : SyscallRow κ) : d.SameShape d := ⟨rfl, rfl, rfl⟩

theorem SameShape.trans {f : SyscallRow κ} (h : d.SameShape e) (g : e.SameShape f) :
    d.SameShape f :=
  ⟨g.nargs.trans h.nargs, g.retvalArgs.trans h.retvalArgs, g.mapArgs.trans h.mapArgs⟩

theorem sameShape_run (change : DescriptorChange κ) (d : SyscallRow κ) :
    d.SameShape (change.run d).2 := by
  cases change with
  | setPre pre => cases pre <;> exact ⟨rfl, rfl, rfl⟩
  | setPost post => cases post <;> exact ⟨rfl, rfl, rfl⟩
  | clrPre => exact ⟨rfl, rfl, rfl⟩
  | clrPost => exact ⟨rfl, rfl, rfl⟩

/-- A row with other callbacks and another flag is in order if those are. -/
theorem Ok.of_sameShape (h : d.Ok argsRead) (same : d.SameShape e)
    (hooked : e.pre ≠ none ∨ e.post ≠ none → e.saveArgs ≠ 0)
    (pre : ∀ c ∈ e.pre, argsRead c ≤ d.nargs) (post : ∀ c ∈ e.post, argsRead c ≤ d.nargs) :
    e.Ok argsRead where
  nargs := same.nargs ▸ h.nargs
  mapped i hi := by
    rw [same.nargs, same.retvalArgs]
    exact h.mapped i (same.mapArgs ▸ hi)
  hooked := hooked
  pre := same.nargs ▸ pre
  post := same.nargs ▸ post

theorem Ok.run (h : d.Ok argsRead) (fits : ∀ c ∈ change.installs, argsRead c ≤ d.nargs) :
    (change.run d).2.Ok argsRead := by
  have same := sameShape_run change d
  cases change with
  | setPre pre =>
    cases pre with
    | none => exact h
    | some c => exact h.of_sameShape same (fun _ => one_ne_zero) fits h.post
  | setPost post =>
    cases post with
    | none => exact h
    | some c => exact h.of_sameShape same (fun _ => one_ne_zero) h.pre fits
  | clrPre =>
    refine h.of_sameShape same (fun some => ?_)
      (by simp [DescriptorChange.run, syscallClrPre]) h.post
    have post : d.post ≠ none := some.resolve_left fun ne => ne rfl
    rw [DescriptorChange.run, syscallClrPre, if_neg (by simpa using post)]
    exact h.hooked (.inr post)
  | clrPost =>
    refine h.of_sameShape same (fun some => ?_) h.pre
      (by simp [DescriptorChange.run, syscallClrPost])
    have pre : d.pre ≠ none := some.resolve_right fun ne => ne rfl
    rw [DescriptorChange.run, syscallClrPost, if_neg (by simpa using pre)]
    exact h.hooked (.inl pre)

end SyscallRow

section Runs

variable {argsRead : κ → ℕ} {start table : List (SyscallRow κ)} {calls : List (DescriptorCall κ)}

/-- Row by row, the table is in order and has the shape of the one at the start. -/
def InOrder (argsRead : κ → ℕ) (start table : List (SyscallRow κ)) : Prop :=
  List.Forall₂ (fun d e => d.SameShape e ∧ e.Ok argsRead) start table

/-- No callback is installed that reads more arguments than its row has. -/
def DescriptorCall.Fits (argsRead : κ → ℕ) (start : List (SyscallRow κ)) (call : DescriptorCall κ) :
    Prop :=
  ∀ i ∈ call.desc, ∀ d ∈ start[i]?, ∀ c ∈ call.change.installs, argsRead c ≤ d.nargs

theorem InOrder.run (h : InOrder argsRead start table) {call : DescriptorCall κ}
    (fits : call.Fits argsRead start) : InOrder argsRead start (call.run table).2 := by
  obtain ⟨desc, change⟩ := call
  cases desc with
  | none => exact h
  | some i =>
    cases row : table[i]? with
    | none => simpa only [DescriptorCall.run, row] using h
    | some e =>
      have both := forall₂_getElem? h i
      rw [row] at both
      generalize here : start[i]? = x at both
      cases both with
      | @some d _ related =>
        obtain ⟨same, ok⟩ := related
        have after : d.SameShape (change.run e).2 ∧ (change.run e).2.Ok argsRead :=
          ⟨same.trans (SyscallRow.sameShape_run change e),
            ok.run fun c hc => same.nargs ▸ fits i rfl d here c hc⟩
        simp only [DescriptorCall.run, row]
        exact (forall₂_set h.flip here after).flip

end Runs

end LibdftDr
