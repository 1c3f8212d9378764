import LibdftDr.Machine.Threads
import LibdftDr.Syscall.Failures
import LibdftDr.Syscall.Table

/-!
# System calls of threads

Before a system call the dispatch saves the number and the arguments in the context of the thread,
and after it the post hook, or the default cleanup, works on what was saved. Between the two other
threads may do anything. `post_uses_own_args`: what is done after a call is what the hook does with
the arguments that this very call passed.

`Act` is everything that happens to a process; `processRun_sound` is the invariant of its runs.
-/
namespace LibdftDr
open Library Library.Action

/-- What the hooks are configured with. -/
structure HookOptions where
  filename : Text
  mmapType : Bool
  sizeof : CType → UINT64

/-- A callback, or the default cleanup, has ended. -/
structure Dispatched where
  ending : HookEnd
  fdset : Finset INT32
  ctx : SyscallCtx
  shadow : Shadow

/-! ## The hooks of the table -/

namespace SyscallHook

/-- The hooks that paint or clear. -/
def painter (mmapType : Bool) : SyscallHook → Option PostHook
  | .postRead => some .read
  | .postPread64 => some .pread64
  | .postMmap => some (.mmap mmapType)
  | .postMunmap => some .munmap
  | _ => none

/-- The hooks that keep track of descriptors. -/
def track (os : OsView) (filename : Text) (ctx : SyscallCtx) :
    SyscallHook → Finset INT32 → Finset INT32
  | .postOpen => postOpenHook os filename ctx
  | .postOpenat => postOpenatHook os filename ctx
  | .postDup => postDupHook ctx
  | .postDup2 => postDup2Hook ctx
  | .postDup3 => postDup3Hook ctx
  | .postClose => postCloseHook ctx
  | _ => id

/-- `post_mmap_hook` moves the saved result of a mapping that grows downwards. -/
def ctxAfter (ctx : SyscallCtx) : SyscallHook → SyscallCtx
  | .postMmap => if ctx.ret = -1 then ctx else { ctx with ret := mmapBuf ctx }
  | _ => ctx

def run (opts : HookOptions) (os : KernelView) (fdset : Finset INT32) (ctx : SyscallCtx)
    (s : Shadow) (h : SyscallHook) : Except Fault Dispatched :=
  match h.painter opts.mmapType with
  | some painter => do
    let (ending, s) ← painter.run os fdset ctx s
    .ok ⟨ending, fdset, h.ctxAfter ctx, s⟩
  | none => .ok ⟨.returned, h.track os.toOsView opts.filename ctx fdset, ctx, s⟩

end SyscallHook

/-- What is done after a call. -/
def SyscallRow.dispatch (opts : HookOptions) (os : KernelView) (fdset : Finset INT32)
    (ctx : SyscallCtx) (s : Shadow) (d : SyscallRow SyscallHook) : Except Fault Dispatched :=
  match d.post with
  | some h => h.run opts os fdset ctx s
  | none => do
    let (_, s) ← defaultPost (d.desc opts.sizeof) ctx s
    .ok ⟨.returned, fdset, ctx, s⟩

/-- The saved arguments; those that the call does not have stay as they were. -/
def SyscallRow.save (param : Fin 6 → ADDRINT) (ctx : SyscallCtx) (d : SyscallRow SyscallHook) :
    SyscallCtx :=
  { ctx with arg := fun i => if i.val < d.nargs then param i else ctx.arg i }

/-! ## The events -/

section Dispatch

variable (table : List (SyscallRow SyscallHook)) (opts : HookOptions)

/-- The row of a number in range. -/
def descOf (nr : INT32) : Option (SyscallRow SyscallHook) :=
  if 0 ≤ nr.toInt ∧ nr.toInt < SYSCALL_MAX then table[nr.toNat]? else none

def eventFilterSyscall (sysnum : INT32) : Bool :=
  match descOf table sysnum with
  | none => false
  | some d => decide d.Saved

namespace Process

def withThread (t : ThreadId) (tc : ThreadCtx) (p : Process) : Process :=
  { p with threads := Function.update p.threads t (some tc) }

/-- What a callback that a thread ran leaves. -/
def install (t : ThreadId) (tc : ThreadCtx) (r : Dispatched) (p : Process) : Process :=
  { p.put t { tc with syscallCtx := r.ctx } r.shadow with fdset := r.fdset }

def eventPreSyscall (os : KernelView) (t : ThreadId) (sysnum : INT32) (param : Fin 6 → ADDRINT)
    (p : Process) : Except Fault (HookEnd × Process) :=
  match p.threads t with
  | none => .error .nullDeref
  | some tc =>
    match descOf table sysnum with
    | none => .ok (.returned, p.withThread t { tc with nr := -1 })
    | some d =>
      if d.Saved then
        let tc := { tc with nr := sysnum, syscallCtx := d.save param tc.syscallCtx }
        match d.pre with
        | none => .ok (.returned, p.withThread t tc)
        | some h => do
          let r ← h.run opts os p.fdset tc.syscallCtx (p.shadow tc)
          .ok (r.ending, p.install t tc r)
      else .ok (.returned, p.withThread t { tc with nr := sysnum })

def eventPostSyscall (os : KernelView) (t : ThreadId) (result : ADDRINT) (p : Process) :
    Except Fault (HookEnd × Process) :=
  match p.threads t with
  | none => .error .nullDeref
  | some tc =>
    match descOf table tc.nr with
    | none => .ok (.returned, p)
    | some d =>
      if d.Saved then do
        let r ← d.dispatch opts os p.fdset { tc.syscallCtx with ret := result } (p.shadow tc)
        .ok (r.ending, p.install t tc r)
      else .ok (.returned, p)

end Process

inductive Act where
  | threadInit (t : ThreadId)
  | threadExit (t : ThreadId)
  | event (t : ThreadId) (e : Event)
  | preSyscall (os : KernelView) (t : ThreadId) (sysnum : INT32) (param : Fin 6 → ADDRINT)
  | postSyscall (os : KernelView) (t : ThreadId) (result : ADDRINT)

/-- What happens to a process that goes on. -/
inductive ProcessStep (p : Process) : Act → Process → Prop
  | threadInit {t} : ProcessStep p (.threadInit t) (p.threadInit t)
  | threadExit {t} : ProcessStep p (.threadExit t) (p.threadExit t)
  | event {t e q} (step : ThreadStep p (t, e) q) : ProcessStep p (.event t e) q
  | preSyscall {os t sysnum param q}
    (run : p.eventPreSyscall table opts os t sysnum param = .ok (.returned, q)) :
    ProcessStep p (.preSyscall os t sysnum param) q
  | postSyscall {os t result q}
    (run : p.eventPostSyscall table opts os t result = .ok (.returned, q)) :
    ProcessStep p (.postSyscall os t result) q

end Dispatch

/-- The act starts or ends the thread, or is one of its system calls. -/
def Act.Changes (t : ThreadId) : Act → Prop
  | .threadInit u | .threadExit u | .preSyscall _ u _ _ | .postSyscall _ u _ => u = t
  | .event _ _ => False

/-! ## Hooks use arguments that are saved -/

section Args

variable {opts : HookOptions} {os : KernelView} {fdset : Finset INT32} {ctx ctx' : SyscallCtx}
  {s : Shadow} {h : SyscallHook} {d : SyscallRow SyscallHook}

/-- Contexts with the same result and the same first `n` arguments. -/
structure SyscallCtx.Agree (n : ℕ) (ctx ctx' : SyscallCtx) : Prop where
  ret : ctx.ret = ctx'.ret
  arg : ∀ i, i.val < n → ctx.arg i = ctx'.arg i

theorem SyscallCtx.Agree.mono {m n : ℕ} (h : ctx.Agree n ctx') (le : m ≤ n) : ctx.Agree m ctx' :=
  ⟨h.ret, fun i hi => h.arg i (hi.trans_le le)⟩

theorem SyscallCtx.Agree.eq (h : ctx.Agree 6 ctx') : ctx = ctx' := by
  cases ctx with
  | mk arg ret =>
    cases ctx' with
    | mk arg' ret' =>
      have rets : ret = ret' := h.ret
      have args : arg = arg' := funext fun i => h.arg i i.isLt
      rw [rets, args]

/-- The outcomes are the same but for the context. -/
def SameWork (r r' : Dispatched) : Prop := r = { r' with ctx := r.ctx }

theorem SyscallHook.painter_run_congr (agree : ctx.Agree h.argsRead ctx') {painter : PostHook}
    (is : h.painter opts.mmapType = some painter) :
    painter.run os fdset ctx = painter.run os fdset ctx' := by
  have ret := agree.ret
  cases h with
  | postRead =>
    cases is
    simp only [PostHook.run, postReadHook, ret, agree.arg 0 (by decide), agree.arg 1 (by decide)]
  | postPread64 =>
    cases is
    simp only [PostHook.run, postPread64Hook, ret, agree.arg 0 (by decide), agree.arg 1 (by decide),
      agree.arg 3 (by decide)]
  | postMunmap =>
    cases is
    simp only [PostHook.run, postMunmapHook, ret, agree.arg 0 (by decide), agree.arg 1 (by decide)]
  | postMmap =>
    rw [agree.eq]
  | postOpen => cases is
  | postOpenat => cases is
  | postDup => cases is
  | postDup2 => cases is
  | postDup3 => cases is
  | postClose => cases is

theorem SyscallHook.track_congr (agree : ctx.Agree h.argsRead ctx') (view : OsView)
    (filename : Text) :
    h.track view filename ctx = h.track view filename ctx' := by
  have ret := agree.ret
  cases h with
  | postRead => rfl
  | postPread64 => rfl
  | postMunmap => rfl
  | postMmap => rfl
  | postOpen =>
    funext fds
    simp only [track, postOpenHook, ret]
  | postOpenat =>
    funext fds
    simp only [track, postOpenatHook, postOpenHook, ret]
  | postDup =>
    funext fds
    simp only [track, postDupHook, ret, agree.arg 0 (by decide)]
  | postDup2 =>
    funext fds
    simp only [track, postDup2Hook, dupOnto, agree.arg 0 (by decide), agree.arg 1 (by decide)]
  | postDup3 =>
    funext fds
    simp only [track, postDup3Hook, dupOnto, agree.arg 0 (by decide), agree.arg 1 (by decide)]
  | postClose =>
    funext fds
    simp only [track, postCloseHook, ret, agree.arg 0 (by decide)]

theorem SyscallHook.run_congr (agree : ctx.Agree h.argsRead ctx') :
    Matched SameWork (h.run opts os fdset ctx s) (h.run opts os fdset ctx' s) := by
  unfold SyscallHook.run
  cases is : h.painter opts.mmapType with
  | none => exact .ok (by simp only [SameWork, track_congr agree])
  | some painter =>
    dsimp only
    rw [painter_run_congr agree is]
    cases painter.run os fdset ctx' s with
    | error e => exact .error e
    | ok r => exact .ok rfl

/-- The default cleanup looks at saved arguments only. -/
theorem defaultPost_congr {desc : SyscallDesc} (agree : ctx.Agree desc.nargs ctx') :
    defaultPost desc ctx = defaultPost desc ctx' := by
  unfold defaultPost
  rw [agree.ret]
  refine congrArg _ (each_congr (fun i hi => ?_) _)
  have saved : i.val < desc.nargs := by
    obtain ⟨k, hk, rfl⟩ := List.mem_take_iff_getElem.mp hi
    rw [List.getElem_finRange]
    exact (lt_min_iff.mp hk).1
  rw [agree.arg i saved]

/-- What is done after a call depends on the saved arguments and the result. -/
theorem SyscallRow.dispatch_congr (ok : d.Ok SyscallHook.argsRead)
    (agree : ctx.Agree d.nargs ctx') :
    Matched SameWork (d.dispatch opts os fdset ctx s) (d.dispatch opts os fdset ctx' s) := by
  unfold SyscallRow.dispatch
  cases post : d.post with
  | some h => exact SyscallHook.run_congr (agree.mono (ok.post h post))
  | none =>
    dsimp only
    have same : defaultPost (d.desc opts.sizeof) ctx = defaultPost (d.desc opts.sizeof) ctx' :=
      defaultPost_congr agree
    rw [same]
    cases defaultPost (d.desc opts.sizeof) ctx' s with
    | error e => exact .error e
    | ok r => exact .ok rfl

end Args

/-! ## What callbacks do to the process -/

section Callbacks

variable {table : List (SyscallRow SyscallHook)} {opts : HookOptions} {p q : Process}
  {t u : ThreadId} {tc : ThreadCtx} {d : SyscallRow SyscallHook} {h : SyscallHook} {nr : INT32}
  {os : KernelView} {fdset : Finset INT32} {ctx : SyscallCtx} {s s' : Shadow} {r : Dispatched}
  {param : Fin 6 → ADDRINT} {result : ADDRINT} {ending : HookEnd}

/-- A sound shadow state stays sound, and ids keep their sets. -/
def Follows (s s' : Shadow) : Prop := s.Sound → s'.Sound ∧ s.sets.Grows s'.sets

theorem Follows.refl (s : Shadow) : Follows s s := fun sound => ⟨sound, .refl _⟩

theorem follows_of_flow {α : Type} {D : Set Cell} {guard : Prop} {f : Engine α} {a : α}
    (flow : Flow D Set.univ ∅ guard (fun _ => ∅) f) (run : f s = .ok (a, s')) : Follows s s' := by
  intro sound
  obtain ⟨-, sound', -, le⟩ := flow.of_ok sound sound.within_univ run
  exact ⟨sound', le.grows⟩

theorem SyscallHook.run_spec (run : h.run opts os fdset ctx s = .ok r) :
    Follows s r.shadow ∧ r.ctx.arg = ctx.arg := by
  unfold SyscallHook.run at run
  cases is : h.painter opts.mmapType with
  | none =>
    rw [is] at run
    cases run
    exact ⟨.refl s, rfl⟩
  | some painter =>
    rw [is] at run
    cases painted : painter.run os fdset ctx s with
    | error e =>
      simp only [painted] at run
      cases run
    | ok out =>
      obtain ⟨e, s'⟩ := out
      simp only [painted] at run
      cases run
      refine ⟨follows_of_flow (PostHook.flow (Set.subset_univ _)) painted, ?_⟩
      cases h with
      | postMmap =>
        simp only [ctxAfter]
        split_ifs <;> rfl
      | _ => rfl

theorem SyscallRow.dispatch_follows (run : d.dispatch opts os fdset ctx s = .ok r) :
    Follows s r.shadow := by
  unfold SyscallRow.dispatch at run
  cases post : d.post with
  | some h =>
    rw [post] at run
    exact (SyscallHook.run_spec run).1
  | none =>
    rw [post] at run
    cases cleaned : defaultPost (d.desc opts.sizeof) ctx s with
    | error e =>
      simp only [cleaned] at run
      cases run
    | ok out =>
      simp only [cleaned] at run
      cases run
      exact follows_of_flow defaultPost_flow cleaned

namespace Process

/-- The thread has worked on its own context and on what is shared. -/
def Worked (u : ThreadId) (p q : Process) : Prop :=
  ∃ tc tc' r, p.threads u = some tc ∧ q = p.install u tc' r ∧ Follows (p.shadow tc) r.shadow

theorem Worked.withThread (alive : p.threads u = some tc) {tc' : ThreadCtx}
    (same : tc'.gprFile = tc.gprFile) : p.Worked u (p.withThread u tc') :=
  ⟨tc, tc', ⟨.returned, p.fdset, tc'.syscallCtx, p.shadow tc'⟩, alive, rfl,
    by rw [shadow, shadow, same]; exact .refl _⟩

theorem Worked.threads_of_ne (h : p.Worked u q) (ne : t ≠ u) : q.threads t = p.threads t := by
  obtain ⟨tc, tc', r, -, rfl, -⟩ := h
  exact Function.update_of_ne ne ..

theorem Worked.sound (h : p.Worked u q) (sound : p.Sound) : q.Sound := by
  obtain ⟨tc, tc', r, alive, rfl, follows⟩ := h
  obtain ⟨sound', grows⟩ := follows (sound.own u tc alive)
  have put : (p.put u { tc' with syscallCtx := r.ctx } r.shadow).Sound := sound.put sound' grows
  exact ⟨put.fresh, put.own⟩

/-- What the dispatch before a call can do. -/
inductive PreCall (table : List (SyscallRow SyscallHook)) (opts : HookOptions) (os : KernelView)
    (u : ThreadId) (nr : INT32) (param : Fin 6 → ADDRINT) (p : Process) : HookEnd → Process → Prop
  | outside {tc : ThreadCtx} (alive : p.threads u = some tc) (row : descOf table nr = none) :
    PreCall table opts os u nr param p .returned (p.withThread u { tc with nr := -1 })
  | unsaved {tc : ThreadCtx} {d : SyscallRow SyscallHook} (alive : p.threads u = some tc)
    (row : descOf table nr = some d) (plain : ¬ d.Saved) :
    PreCall table opts os u nr param p .returned (p.withThread u { tc with nr := nr })
  | unhooked {tc : ThreadCtx} {d : SyscallRow SyscallHook} (alive : p.threads u = some tc)
    (row : descOf table nr = some d) (saved : d.Saved) (pre : d.pre = none) :
    PreCall table opts os u nr param p .returned
      (p.withThread u ⟨tc.gprFile, nr, d.save param tc.syscallCtx⟩)
  | hooked {tc : ThreadCtx} {d : SyscallRow SyscallHook} {h : SyscallHook} {r : Dispatched}
    (alive : p.threads u = some tc) (row : descOf table nr = some d)
    (saved : d.Saved) (pre : d.pre = some h)
    (ran : h.run opts os p.fdset (d.save param tc.syscallCtx)
      (p.shadow ⟨tc.gprFile, nr, d.save param tc.syscallCtx⟩) = .ok r) :
    PreCall table opts os u nr param p r.ending
      (p.install u ⟨tc.gprFile, nr, d.save param tc.syscallCtx⟩ r)

theorem eventPreSyscall_cases
    (run : p.eventPreSyscall table opts os u nr param = .ok (ending, q)) :
    PreCall table opts os u nr param p ending q := by
  unfold eventPreSyscall at run
  cases alive : p.threads u with
  | none =>
    rw [alive] at run
    cases run
  | some tc =>
    simp only [alive] at run
    cases row : descOf table nr with
    | none =>
      rw [row] at run
      cases run
      exact .outside alive row
    | some d =>
      simp only [row] at run
      split_ifs at run with saved
      · cases pre : d.pre with
        | none =>
          rw [pre] at run
          cases run
          exact .unhooked alive row saved pre
        | some h =>
          simp only [pre] at run
          cases ran : h.run opts os p.fdset (d.save param tc.syscallCtx)
              (p.shadow ⟨tc.gprFile, nr, d.save param tc.syscallCtx⟩) with
          | error e =>
            rw [ran] at run
            cases run
          | ok r =>
            rw [ran] at run
            cases run
            exact .hooked alive row saved pre ran
      · cases run
        exact .unsaved alive row saved

theorem eventPreSyscall_worked
    (run : p.eventPreSyscall table opts os u nr param = .ok (ending, q)) : p.Worked u q := by
  cases eventPreSyscall_cases run with
  | outside alive row => exact .withThread alive rfl
  | unsaved alive row plain => exact .withThread alive rfl
  | unhooked alive row saved pre => exact .withThread alive rfl
  | hooked alive row saved pre ran => exact ⟨_, _, _, alive, rfl, (SyscallHook.run_spec ran).1⟩

theorem eventPostSyscall_worked
    (run : p.eventPostSyscall table opts os u result = .ok (ending, q)) : p.Worked u q := by
  unfold eventPostSyscall at run
  cases alive : p.threads u with
  | none =>
    rw [alive] at run
    cases run
  | some tc =>
    have same : p.withThread u tc = p := by rw [withThread, ← alive, Function.update_eq_self]
    have idle : p.Worked u (p.withThread u tc) := .withThread alive rfl
    rw [same] at idle
    simp only [alive] at run
    cases row : descOf table tc.nr with
    | none =>
      rw [row] at run
      cases run
      exact idle
    | some d =>
      simp only [row] at run
      split_ifs at run
      · cases ran : d.dispatch opts os p.fdset { tc.syscallCtx with ret := result }
            (p.shadow tc) with
        | error e =>
          rw [ran] at run
          cases run
        | ok r =>
          rw [ran] at run
          cases run
          exact ⟨tc, tc, r, alive, rfl, SyscallRow.dispatch_follows ran⟩
      · cases run
        exact idle

end Process

end Callbacks

/-! ## What a thread has saved -/

section Runs

variable {table : List (SyscallRow SyscallHook)} {opts : HookOptions} {p q : Process} {a : Act}
  {acts : List Act} {t : ThreadId} {tc : ThreadCtx} {d : SyscallRow SyscallHook} {nr : INT32}
  {os os' : KernelView} {param : Fin 6 → ADDRINT} {result : ADDRINT}

theorem ProcessStep.sound (step : ProcessStep table opts p a q) (h : p.Sound) : q.Sound := by
  cases step with
  | threadInit => exact h.threadInit _
  | threadExit => exact h.threadExit _
  | event step => exact step.sound h
  | preSyscall run => exact (Process.eventPreSyscall_worked run).sound h
  | postSyscall run => exact (Process.eventPostSyscall_worked run).sound h

/-- In every run of a process every register of every thread and every byte of memory holds an id
of the set table. -/
theorem processRun_sound (run : Run (ProcessStep table opts) .start acts q) : q.Sound :=
  run.invariant Process.start_sound fun _ _ _ sound step => step.sound sound

/-- The thread is in a call with the number `nr` and its first arguments. -/
def Process.InCall (t : ThreadId) (nr : INT32) (n : ℕ) (param : Fin 6 → ADDRINT) (p : Process) :
    Prop :=
  ∃ tc, p.threads t = some tc ∧ tc.nr = nr ∧ ∀ i, i.val < n → tc.syscallCtx.arg i = param i

/-- Other threads, and events, leave alone what the thread has saved. -/
theorem ProcessStep.inCall {n : ℕ} (step : ProcessStep table opts p a q) (other : ¬ a.Changes t)
    (h : p.InCall t nr n param) : q.InCall t nr n param := by
  have kept : q.threads t = p.threads t → q.InCall t nr n param := fun same => by
    obtain ⟨tc, alive, saved⟩ := h
    exact ⟨tc, same.trans alive, saved⟩
  cases step with
  | threadInit => exact kept (Function.update_of_ne (Ne.symm other) ..)
  | threadExit => exact kept (Function.update_of_ne (Ne.symm other) ..)
  | preSyscall run =>
    exact kept ((Process.eventPreSyscall_worked run).threads_of_ne (Ne.symm other))
  | postSyscall run =>
    exact kept ((Process.eventPostSyscall_worked run).threads_of_ne (Ne.symm other))
  | @event u e _ step =>
    cases step with
    | mk alive' step =>
      by_cases own : t = u
      · subst own
        obtain ⟨tc, alive, saved⟩ := h
        cases alive'.symm.trans alive
        exact ⟨_, Function.update_self .., saved⟩
      · exact kept (Function.update_of_ne own ..)

/-- The dispatch before a call saves its arguments. -/
theorem Process.eventPreSyscall_inCall {ending : HookEnd} (row : descOf table nr = some d)
    (saved : d.Saved) (run : p.eventPreSyscall table opts os t nr param = .ok (ending, q)) :
    q.InCall t nr d.nargs param := by
  have args : ∀ (ctx : SyscallCtx) (i : Fin 6), i.val < d.nargs →
      (d.save param ctx).arg i = param i := fun _ _ hi => if_pos hi
  cases eventPreSyscall_cases run with
  | outside alive none => cases row.symm.trans none
  | unsaved alive found plain =>
    cases row.symm.trans found
    exact absurd saved plain
  | unhooked alive found =>
    cases row.symm.trans found
    exact ⟨_, Function.update_self .., rfl, args _⟩
  | hooked alive found saved pre ran =>
    cases row.symm.trans found
    refine ⟨_, Function.update_self .., rfl, fun i hi => ?_⟩
    exact (congrFun (SyscallHook.run_spec ran).2 i).trans (args _ i hi)

/-- From the dispatch before a call on, the thread is in that call. -/
theorem inCall_of_run (row : descOf table nr = some d) (saved : d.Saved)
    (run : Run (ProcessStep table opts) p (.preSyscall os t nr param :: acts) q)
    (others : ∀ a ∈ acts, ¬ a.Changes t) : q.InCall t nr d.nargs param := by
  induction acts using List.reverseRecOn generalizing q with
  | nil =>
    have run : Run (ProcessStep table opts) p ([] ++ [.preSyscall os t nr param]) q := run
    obtain ⟨p', none, step⟩ := run.exists_of_concat
    obtain rfl := none.eq_of_nil
    cases step with
    | preSyscall pre => exact Process.eventPreSyscall_inCall row saved pre
  | append_singleton acts a ih =>
    have run : Run (ProcessStep table opts) p ((.preSyscall os t nr param :: acts) ++ [a]) q := run
    obtain ⟨p', run', step⟩ := run.exists_of_concat
    have before := ih run' fun b hb => others b (List.mem_append_left _ hb)
    exact step.inCall (others a (List.mem_append_right _ (.head _))) before

/-- What is done after a system call is what its hook, or the default cleanup, does with the
arguments of this very call, whatever other threads have done in between, their own system calls
included; of the context only the thread itself sees more. -/
theorem post_uses_own_args (ok : ∀ d ∈ table, d.Ok SyscallHook.argsRead)
    (row : descOf table nr = some d) (saved : d.Saved)
    (run : Run (ProcessStep table opts) p (.preSyscall os t nr param :: acts) q)
    (others : ∀ a ∈ acts, ¬ a.Changes t) :
    ∃ tc, q.threads t = some tc ∧
      Matched (fun out r => ∃ ctx, out = (r.ending, q.install t tc { r with ctx := ctx }))
        (q.eventPostSyscall table opts os' t result)
        (d.dispatch opts os' q.fdset ⟨param, result⟩ (q.shadow tc)) := by
  obtain ⟨tc, alive, number, args⟩ := inCall_of_run row saved run others
  have listed : d ∈ table := by
    unfold descOf at row
    split_ifs at row
    exact List.mem_of_getElem? row
  have agree : SyscallCtx.Agree d.nargs { tc.syscallCtx with ret := result } ⟨param, result⟩ :=
    ⟨rfl, args⟩
  have work : Matched SameWork
      (d.dispatch opts os' q.fdset { tc.syscallCtx with ret := result } (q.shadow tc))
      (d.dispatch opts os' q.fdset ⟨param, result⟩ (q.shadow tc)) :=
    SyscallRow.dispatch_congr (ok d listed) agree
  refine ⟨tc, alive, ?_⟩
  simp only [Process.eventPostSyscall, alive, number, row, if_pos saved]
  generalize d.dispatch opts os' q.fdset { tc.syscallCtx with ret := result } (q.shadow tc) = x
    at work
  generalize d.dispatch opts os' q.fdset ⟨param, result⟩ (q.shadow tc) = y at work
  cases work with
  | error e => exact .error e
  | @ok r r' same => exact .ok ⟨r.ctx, congrArg (fun x => (x.ending, q.install t tc x)) same⟩

/-- A thread can start a call that has no hook before it. -/
theorem exists_preSyscall (opts : HookOptions) (alive : p.threads t = some tc)
    (row : descOf table nr = some d) (pre : d.pre = none) (os : KernelView)
    (param : Fin 6 → ADDRINT) :
    ∃ q, ProcessStep table opts p (.preSyscall os t nr param) q ∧
      ∀ u, u ≠ t → q.threads u = p.threads u := by
  obtain ⟨q, run⟩ : ∃ q, p.eventPreSyscall table opts os t nr param = .ok (.returned, q) := by
    simp only [Process.eventPreSyscall, alive, row, pre]
    split_ifs
    · exact ⟨_, rfl⟩
    · exact ⟨_, rfl⟩
  exact ⟨q, .preSyscall run, fun u ne => (Process.eventPreSyscall_worked run).threads_of_ne ne⟩

/-- `read(fd, buf, 16)`. -/
def readArgs (fd buf : ADDRINT) : Fin 6 → ADDRINT := fun i =>
  if i.val = 0 then fd else if i.val = 1 then buf else 16

def someOptions : HookOptions := ⟨[], true, fun _ => 1⟩

/-- The position of every descriptor is 2. -/
def atTwo : KernelView := { noKernel with seekCur := fun _ => 2 }

/-- A thread comes, opens a file, reads two bytes of it and loads the second. -/
theorem processRun_sound_read : ∃ q, Run (ProcessStep syscallDesc someOptions) .start
    [.threadInit 1, .preSyscall noKernel 1 2 (readArgs 0x1000 0), .postSyscall noKernel 1 3,
      .preSyscall noKernel 1 0 (readArgs 3 0x2000), .postSyscall atTwo 1 2,
      .event 1 (loadFrom 0x2001)] q ∧
    q.Sound ∧ q.sets.gSets.length = 3 ∧ q.labelsOf (.reg 1 DFT_REG_RAX 0) = {1} := by
  have run : Run (ProcessStep syscallDesc someOptions) .start
      [.threadInit 1, .preSyscall noKernel 1 2 (readArgs 0x1000 0), .postSyscall noKernel 1 3,
        .preSyscall noKernel 1 0 (readArgs 3 0x2000), .postSyscall atTwo 1 2,
        .event 1 (loadFrom 0x2001)] _ :=
    .cons .threadInit <| .cons (.preSyscall rfl) <| .cons (.postSyscall rfl) <|
    .cons (.preSyscall rfl) <| .cons (.postSyscall rfl) <|
    .cons (.event (.after rfl ⟨by decide, by decide⟩ rfl rfl)) .nil
  exact ⟨_, run, processRun_sound run, rfl, rfl⟩

/-- `read` on one thread, while another one starts its own. -/
theorem post_uses_own_args_read : ∃ p q tc d,
    Run (ProcessStep syscallDesc someOptions) p
      [.preSyscall noKernel 1 0 (readArgs 3 0x1000),
        .preSyscall noKernel 2 0 (readArgs 4 0x2000)] q ∧
      q.threads 1 = some tc ∧ descOf syscallDesc 0 = some d ∧
        Matched (fun out r => ∃ ctx, out = (r.ending, q.install 1 tc { r with ctx := ctx }))
          (q.eventPostSyscall syscallDesc someOptions noKernel 1 16)
          (d.dispatch someOptions noKernel q.fdset ⟨readArgs 3 0x1000, 16⟩ (q.shadow tc)) := by
  let p := (Process.start.threadInit 1).threadInit 2
  have row : descOf syscallDesc 0 = some ⟨3, 1, 1, maps [], none, some .postRead⟩ := rfl
  have one : p.threads 1 = some ThreadCtx.new := rfl
  obtain ⟨p', first, others⟩ :=
    exists_preSyscall someOptions one row rfl noKernel (readArgs 3 0x1000)
  have two : p'.threads 2 = some ThreadCtx.new := others 2 (by decide)
  obtain ⟨q, second, -⟩ :=
    exists_preSyscall someOptions two row rfl noKernel (readArgs 4 0x2000)
  have run := Run.cons first (.cons second .nil)
  obtain ⟨tc, alive, work⟩ :=
    post_uses_own_args syscallDesc_ok row (by decide) run (by simp [Act.Changes])
  exact ⟨p, q, tc, _, run, alive, row, work⟩

end Runs

/-! ## The filter -/

/-- The table after calls that set and clear callbacks. -/
def descTable (calls : List (DescriptorCall SyscallHook)) : List (SyscallRow SyscallHook) :=
  calls.foldl (fun table call => (call.run table).2) syscallDesc

theorem descTable_inOrder (calls : List (DescriptorCall SyscallHook)) :
    InOrder (fun _ => 0) syscallDesc (descTable calls) := by
  have start : InOrder (fun _ => 0) syscallDesc syscallDesc :=
    List.forall₂_same.mpr fun d hd =>
      have ok := syscallDesc_ok d hd
      ⟨.refl d, ok.nargs, ok.mapped, ok.hooked, fun _ _ => Nat.zero_le _, fun _ _ => Nat.zero_le _⟩
  have steps : ∀ table, InOrder (fun _ => 0) syscallDesc table →
      InOrder (fun _ => 0) syscallDesc
        (calls.foldl (fun table call => (call.run table).2) table) := by
    induction calls with
    | nil => exact fun _ h => h
    | cons call calls ih =>
      exact fun table h => ih _ (h.run fun _ _ _ _ _ _ => Nat.zero_le _)
  exact steps _ start

/-- Whatever callbacks are set and cleared, and in whatever order, a system call that has one or
that writes through an argument gets past the filter, and the kernel's writes are cleared through
the arguments that the table had for them at the start. -/
theorem filter_delivers (calls : List (DescriptorCall SyscallHook)) {nr : INT32}
    {d₀ : SyscallRow SyscallHook} (row : descOf syscallDesc nr = some d₀) :
    ∃ d, descOf (descTable calls) nr = some d ∧ d₀.SameShape d ∧
      (d.pre ≠ none ∨ d.post ≠ none ∨ (∃ i, d₀.mapArgs i ≠ none) →
        eventFilterSyscall (descTable calls) nr = true) := by
  have both := forall₂_getElem? (descTable_inOrder calls) nr.toNat
  unfold descOf at row
  split_ifs at row with range
  rw [row] at both
  generalize here : (descTable calls)[nr.toNat]? = x at both
  cases both with
  | @some _ d related =>
    obtain ⟨same, ok⟩ := related
    have found : descOf (descTable calls) nr = some d := (if_pos range).trans here
    refine ⟨d, found, same, fun busy => ?_⟩
    have saved : d.Saved := by
      have or_ne_zero : d.saveArgs ≠ 0 ∨ d.retvalArgs ≠ 0 := by
        rcases busy with pre | post | ⟨i, mapped⟩
        · exact .inl (ok.hooked (.inl pre))
        · exact .inl (ok.hooked (.inr post))
        · exact .inr (ok.mapped i (same.mapArgs ▸ mapped)).2
      intro zero
      obtain ⟨save, retval⟩ := Nat.or_eq_zero_iff.mp zero
      exact or_ne_zero.elim (absurd save) (absurd retval)
    simp only [eventFilterSyscall, found, saved, decide_true]

/-- A hook is set for `stat` and cleared again, and that of `read` is cleared. -/
theorem filter_delivers_stat : ∃ d,
    descOf (descTable [⟨some 4, .setPost (some .postClose)⟩, ⟨none, .clrPre⟩, ⟨some 4, .clrPost⟩,
      ⟨some 0, .clrPost⟩]) 4 = some d ∧ d.nargs = 2 ∧
    eventFilterSyscall (descTable [⟨some 4, .setPost (some .postClose)⟩, ⟨none, .clrPre⟩,
      ⟨some 4, .clrPost⟩, ⟨some 0, .clrPost⟩]) 4 = true := by
  have row : descOf syscallDesc 4 = some ⟨2, 0, 1, maps [none, some .stat], none, none⟩ := rfl
  obtain ⟨d, found, same, delivers⟩ := filter_delivers [⟨some 4, .setPost (some .postClose)⟩,
    ⟨none, .clrPre⟩, ⟨some 4, .clrPost⟩, ⟨some 0, .clrPost⟩] row
  exact ⟨d, found, same.nargs, delivers (.inr (.inr ⟨1, by decide⟩))⟩

end LibdftDr
