import LibdftDr.Library.Interleaving
import LibdftDr.Machine.Provenance

/-!
# Threads

Each thread has a context of its own: a register file and the arguments of its last system call.
The shadow memory and the set table are shared. A schedule says which thread runs which event;
events are taken as atomic, since the code has no lock and says nothing about events that
overlap.

A thread's registers are its own in every schedule. If no event writes memory that an event of
another thread reads or writes, and none is passed a handle, the labels at the end do not depend
on the schedule (`run_interleaving`), although the ids that stand for them do. Handles have to be
left out: one that a thread makes is not an id of the table before. A hook is scheduled with the
descriptor set that it sees, so what other threads open and close in between is not followed.
-/
namespace LibdftDr
open Library Library.Action

/-- Which context `drmgr` keeps for the calling thread. -/
abbrev ThreadId := ℕ

/-- `thread_ctx_t`: `vcpu`, and the number, arguments and result of the system call. -/
structure ThreadCtx where
  gprFile : ℕ → ℕ → Tag
  nr : INT32
  syscallCtx : SyscallCtx

/-- `new thread_ctx_t()`, which is all zero. -/
def ThreadCtx.new : ThreadCtx where
  gprFile _ _ := clearedVal
  nr := 0
  syscallCtx := ⟨fun _ => 0, 0⟩

structure Process where
  sets : SetTable
  tagDir : TagDir
  fdset : Finset INT32
  threads : ThreadId → Option ThreadCtx

/-- A byte of the shadow memory or of the register file of a thread. -/
inductive ThreadCell where
  | reg (t : ThreadId) (row byte : ℕ)
  | mem (addr : ADDRINT)
  deriving DecidableEq

/-- The byte that an event of the thread calls `c`. -/
def Cell.on (t : ThreadId) : Cell → ThreadCell
  | .reg row byte => .reg t row byte
  | .mem addr => .mem addr

theorem Cell.on_injective (t : ThreadId) : Function.Injective (Cell.on t) := by
  intro c d h
  cases c <;> cases d <;> simp_all [Cell.on]

namespace Process

/-- After `libdft_setup`, before any thread. -/
def start : Process where
  sets := tagmapAlloc
  tagDir := TagDir.new
  fdset := ∅
  threads _ := none

def threadInit (t : ThreadId) (p : Process) : Process :=
  { p with threads := Function.update p.threads t (some ThreadCtx.new) }

def threadExit (t : ThreadId) (p : Process) : Process :=
  { p with threads := Function.update p.threads t none }

/-- What an event of the thread sees. -/
def shadow (p : Process) (tc : ThreadCtx) : Shadow := ⟨p.sets, p.tagDir, tc.gprFile⟩

/-- What an event of the thread leaves. -/
def put (p : Process) (t : ThreadId) (tc : ThreadCtx) (s : Shadow) : Process :=
  { p with
    sets := s.sets
    tagDir := s.tagDir
    threads := Function.update p.threads t (some { tc with gprFile := s.gprFile }) }

/-- A register of a thread that does not exist holds nothing. -/
def cell (p : Process) : ThreadCell → Tag
  | .reg t row byte => ((p.threads t).map fun tc => tc.gprFile row byte).getD clearedVal
  | .mem addr => p.tagDir.tagAt addr

abbrev labelsOf (p : Process) (c : ThreadCell) : Finset ℕ := p.sets.setOf (p.cell c)

/-- Every thread finds the shadow state sound, a new one too. -/
structure Sound (p : Process) : Prop where
  fresh : (p.shadow ThreadCtx.new).Sound
  own : ∀ t tc, p.threads t = some tc → (p.shadow tc).Sound

/-- The set table fits the ids. -/
def InIds (p : Process) : Prop := p.sets.gSets.length ≤ idSpace

end Process

/-- A thread runs an event that returns. -/
inductive ThreadStep (p : Process) : ThreadId × Event → Process → Prop
  | mk {t e tc s} (alive : p.threads t = some tc) (step : Step (p.shadow tc) e s) :
    ThreadStep p (t, e) (p.put t tc s)

/-- The data flow of an event of a thread. -/
def threadPlan (x : ThreadId × Event) : Plan ThreadCell Input := x.2.plan.rename (Cell.on x.1)

/-- No byte of memory that the first event writes is read or written by the second. -/
def Event.Apart (e e' : Event) : Prop :=
  ∀ a, Cell.mem a ∈ e.plan.dsts → Cell.mem a ∉ e'.plan.dsts ∧ Cell.mem a ∉ e'.plan.uses

section Threads

variable {p q : Process} {t u : ThreadId} {tc : ThreadCtx} {s s' u' : Shadow} {e : Event}
  {x y : ThreadId × Event} {c : ThreadCell}

/-! ## Soundness -/

theorem Shadow.Sound.of_gprFile (sound : s.Sound) {file : ℕ → ℕ → Tag}
    (known : ∀ row byte, s.sets.Knows (file row byte)) :
    Shadow.Sound ⟨s.sets, s.tagDir, file⟩ where
  live := sound.live
  known c := by
    cases c with
    | reg row byte => exact known row byte
    | mem a => exact sound.known (.mem a)
  exact := sound.exact

namespace Process

theorem start_sound : start.Sound where
  fresh := Shadow.new_sound
  own _ _ h := by cases h

theorem Sound.threadInit (h : p.Sound) (t : ThreadId) : (p.threadInit t).Sound where
  fresh := h.fresh
  own u tc hu := by
    simp only [Process.threadInit, Function.update_apply] at hu
    split_ifs at hu
    · cases hu
      exact h.fresh
    · exact h.own u tc hu

theorem Sound.threadExit (h : p.Sound) (t : ThreadId) : (p.threadExit t).Sound where
  fresh := h.fresh
  own u tc hu := by
    simp only [Process.threadExit, Function.update_apply] at hu
    split_ifs at hu
    exact h.own u tc hu

/-- The other threads find their registers as they were, in a larger table. -/
theorem Sound.put (h : p.Sound) (sound : s.Sound)
    (grows : p.sets.Grows s.sets) : (p.put t tc s).Sound where
  fresh := sound.of_gprFile fun _ _ => sound.live.knows_clearedVal
  own u tc' hu := by
    simp only [Process.put, Function.update_apply] at hu
    split_ifs at hu
    · cases hu
      exact sound
    · exact sound.of_gprFile fun row byte => grows.knows ((h.own u tc' hu).known (.reg row byte))

theorem Sound.known (h : p.Sound) (c : ThreadCell) : p.sets.Knows (p.cell c) := by
  cases c with
  | mem a => exact h.fresh.known (.mem a)
  | reg t row byte =>
    simp only [cell]
    cases alive : p.threads t with
    | none => exact h.fresh.live.knows_clearedVal
    | some tc => exact (h.own t tc alive).known (.reg row byte)

/-! ## Labels -/

theorem cell_on (alive : p.threads t = some tc) (c : Cell) :
    p.cell (c.on t) = (p.shadow tc).cell c := by
  cases c with
  | reg row byte => simp [Cell.on, cell, alive, shadow, Shadow.cell]
  | mem a => rfl

theorem labelsOf_on (alive : p.threads t = some tc) :
    p.labelsOf ∘ Cell.on t = (p.shadow tc).labelsOf :=
  funext fun c => congrArg p.sets.setOf (cell_on alive c)

theorem cell_put_on (p : Process) (t : ThreadId) (tc : ThreadCtx) (s : Shadow) (c : Cell) :
    (p.put t tc s).cell (c.on t) = s.cell c := by
  cases c with
  | reg row byte => simp [Cell.on, cell, put, Shadow.cell]
  | mem a => rfl

theorem cell_put_of_ne (ne : u ≠ t) (row byte : ℕ) :
    (p.put t tc s).cell (.reg u row byte) = p.cell (.reg u row byte) := by
  simp [cell, put, Function.update_of_ne ne]

end Process

namespace ThreadStep

theorem sound (step : ThreadStep p x q) (h : p.Sound) : q.Sound := by
  cases step with
  | mk alive step =>
    obtain ⟨sound, -, le⟩ := step.conclusions (h.own _ _ alive)
    exact h.put sound le.grows

theorem alive_iff (step : ThreadStep p x q) (u : ThreadId) :
    (q.threads u).isSome = (p.threads u).isSome := by
  cases step with
  | @mk t e tc s alive step =>
    simp only [Process.put, Function.update_apply]
    split_ifs with own
    · rw [own, alive]
      rfl
    · rfl

theorem grows (step : ThreadStep p x q) (h : p.Sound) : p.sets.Grows q.sets := by
  cases step with
  | mk alive step => exact (step.conclusions (h.own _ _ alive)).2.2.grows

/-- A thread's event leaves the registers of every other thread as they are. -/
theorem labelsOf_of_ne (step : ThreadStep p x q) (h : p.Sound) (ne : u ≠ x.1) (row byte : ℕ) :
    q.labelsOf (.reg u row byte) = p.labelsOf (.reg u row byte) := by
  have grows := step.grows h
  cases step with
  | mk alive step =>
    rw [Process.labelsOf, Process.cell_put_of_ne ne]
    exact grows.setOf (h.known _)

/-- A step evaluates the plan of its event on the thread's own registers. -/
theorem labelsOf_eq (step : ThreadStep p x q) (h : p.Sound) (given : x.2.tags = ∅)
    (room : q.InIds) : q.labelsOf = (threadPlan x).eval (Input.labels tagmapAlloc) p.labelsOf := by
  funext c
  cases step with
  | @mk t e tc s alive step =>
    have flow : s.labelsOf = e.plan.eval (Input.labels tagmapAlloc) (p.shadow tc).labelsOf :=
      step.labelsOf_eq (h.own t tc alive)
        (fun v hv => absurd (given ▸ hv) (Set.notMem_empty v)) room
    have own : ∀ d : Cell, (p.put t tc s).labelsOf (d.on t) =
        (threadPlan (t, e)).eval (Input.labels tagmapAlloc) p.labelsOf (d.on t) := by
      intro d
      rw [Process.labelsOf, Process.cell_put_on]
      refine (congrFun flow d).trans ?_
      rw [← Process.labelsOf_on alive]
      exact (congrFun (Plan.eval_rename (Cell.on_injective t)) d).symm
    cases c with
    | mem a => exact own (.mem a)
    | reg u row byte =>
      by_cases same : u = t
      · subst same
        exact own (.reg row byte)
      · rw [labelsOf_of_ne (.mk alive step) h same, Plan.eval_of_not_mem]
        intro writes
        obtain ⟨d, -, hd⟩ := Plan.mem_dsts_rename.mp writes
        cases d with
        | reg r b => exact same (ThreadCell.reg.inj hd).1.symm
        | mem a => cases hd

end ThreadStep

/-! ## Schedules -/

/-- How an event ends, if it returns. -/
def Event.ending : Event → HookEnd
  | .hook os fdset ctx (.mmap mmapType) =>
    if ctx.ret ≠ -1 ∧ (0 ≤ (toInt32 (ctx.arg 4)).toInt ∧ toInt32 (ctx.arg 4) ∈ fdset) ∧
        mmapStart os mmapType ctx = none then .died
    else .returned
  | _ => .returned

theorem Event.yields (e : Event) : Yields (· = e.ending) e.run := by
  have ends : ∀ {α : Type} {f : Engine α}, Yields (· = .returned)
      (do let _ ← f; pure HookEnd.returned : Engine HookEnd) :=
    fun {_ f} => (Yields.any f).bind fun _ _ => Yields.pure rfl
  cases e with
  | handler app limitOffset c => exact ends
  | summary mem av sum => exact ends
  | call c => exact ends
  | hook os fdset ctx h =>
    cases h with
    | read => exact ends
    | pread64 => exact ends
    | munmap => exact ends
    | cleanup desc => exact ends
    | mmap mmapType =>
      have returns : ¬ (ctx.ret ≠ -1 ∧
          (0 ≤ (toInt32 (ctx.arg 4)).toInt ∧ toInt32 (ctx.arg 4) ∈ fdset) ∧
          mmapStart os mmapType ctx = none) →
          (Event.hook os fdset ctx (.mmap mmapType)).ending = .returned := fun h => if_neg h
      simp only [Event.run, PostHook.run, postMmapHook]
      split_ifs with failed tracked
      · rw [returns fun h => h.1 failed]
        exact Yields.pure rfl
      · cases start : mmapStart os mmapType ctx with
        | none => exact Yields.pure (if_pos ⟨failed, tracked, start⟩).symm
        | some offset =>
          rw [returns fun h => Option.some_ne_none _ (start.symm.trans h.2.2)]
          exact ends
      · rw [returns fun h => tracked h.2.1]
        exact ends

/-- Whether an event returns does not depend on the shadow. -/
theorem Step.again (step : Step s e u') (sound : s.Sound) (sound' : s'.Sound) (given : e.tags = ∅) :
    ∃ t', Step s' e t' := by
  have none : ∀ v ∈ e.tags, s'.Holds Set.univ v := fun v hv =>
    absurd (given ▸ hv) (Set.notMem_empty v)
  have flow : Flow e.writes Set.univ e.tags _ _ e.run :=
    Event.flow step.wellFormed (Set.subset_univ _) subset_rfl
  obtain ⟨r, t', run, -⟩ := (flow s' ⟨sound', sound'.within_univ⟩ none).1 (step.user sound)
  have same : r = .returned := (e.yields _ _ _ run).trans (e.yields _ _ _ step.run).symm
  exact ⟨t', step.wellFormed, fun v hv => absurd (given ▸ hv) (Set.notMem_empty v), same ▸ run⟩

section Runs

variable {xs ys : List (ThreadId × Event)}

theorem threadRun_sound (run : Run ThreadStep p xs q) (h : p.Sound) : q.Sound :=
  run.invariant h fun _ _ _ sound step => step.sound sound

theorem threadRun_labelsOf (run : Run ThreadStep p xs q) (h : p.Sound)
    (given : ∀ x ∈ xs, x.2.tags = ∅) (room : q.InIds) :
    q.labelsOf =
      xs.foldl (fun m x => (threadPlan x).eval (Input.labels tagmapAlloc) m) p.labelsOf := by
  induction run with
  | nil => rfl
  | @snoc xs x q r run step ih =>
    have sound := threadRun_sound run h
    have room' : q.InIds := (step.grows sound).length_le.trans room
    rw [List.foldl_append, ← ih (fun y hy => given y (List.mem_append_left _ hy)) room']
    exact step.labelsOf_eq sound (given x (List.mem_append_right _ (.head _))) room

/-- An event of a run can be run by its thread in any other state with the same threads. -/
theorem threadRun_again (run : Run ThreadStep p xs q) (h : p.Sound) (given : ∀ x ∈ xs, x.2.tags = ∅)
    {p' : Process} (h' : p'.Sound) (alive : ∀ t, (p'.threads t).isSome = (p.threads t).isSome) :
    ∀ x ∈ xs, ∃ q', ThreadStep p' x q' := by
  induction run with
  | nil => simp
  | @snoc xs x q r run step ih =>
    intro y hy
    rcases List.mem_append.mp hy with old | last
    · exact ih (fun y hy => given y (List.mem_append_left _ hy)) y old
    · obtain rfl := List.mem_singleton.mp last
      have threads : ∀ t, (q.threads t).isSome = (p.threads t).isSome := fun t =>
        run.invariant (I := fun q => (q.threads t).isSome = (p.threads t).isSome) rfl
          fun _ _ _ same step => (step.alive_iff t).trans same
      cases step with
      | @mk t e tc s some step =>
        obtain ⟨tc', some'⟩ : ∃ tc', p'.threads t = Option.some tc' := by
          refine Option.isSome_iff_exists.mp ?_
          rw [alive, ← threads, some]
          rfl
        obtain ⟨s', step'⟩ := step.again ((threadRun_sound run h).own t tc some)
          (h'.own t tc' some') (given _ (List.mem_append_right _ (.head _)))
        exact ⟨_, .mk some' step'⟩

/-- A schedule of events that can each be run. -/
theorem threadRun_of_again (h : p.Sound) (given : ∀ x ∈ xs, ∀ p' : Process, p'.Sound →
    (∀ t, (p'.threads t).isSome = (p.threads t).isSome) → ∃ q', ThreadStep p' x q') :
    ∃ q, Run ThreadStep p xs q ∧ ∀ t, (q.threads t).isSome = (p.threads t).isSome := by
  induction xs using List.reverseRecOn with
  | nil => exact ⟨p, .nil, fun _ => rfl⟩
  | append_singleton xs x ih =>
    obtain ⟨q, run, alive⟩ := ih fun y hy => given y (List.mem_append_left _ hy)
    obtain ⟨r, step⟩ := given x (List.mem_append_right _ (.head _)) q (threadRun_sound run h) alive
    exact ⟨r, run.snoc step, fun t => (step.alive_iff t).trans (alive t)⟩

/-- Different threads share cells of memory only. -/
theorem Cell.exists_mem_of_on_eq {u : ThreadId} {c d : Cell} (ne : t ≠ u) (e : d.on u = c.on t) :
    ∃ a, c = .mem a ∧ d = .mem a := by
  cases c with
  | mem a =>
    cases d with
    | mem b => exact ⟨a, rfl, congrArg _ (ThreadCell.mem.inj e)⟩
    | reg _ _ => cases e
  | reg _ _ =>
    cases d with
    | mem b => cases e
    | reg _ _ => exact absurd (ThreadCell.reg.inj e).1.symm ne

/-- What the event of one thread writes, the event of another neither writes nor reads. -/
theorem not_mem_threadPlan (ne : x.1 ≠ y.1) (apart : x.2.Apart y.2) {c : ThreadCell}
    (hc : c ∈ (threadPlan x).dsts) : c ∉ (threadPlan y).dsts ∧ c ∉ (threadPlan y).uses := by
  obtain ⟨d, hd, rfl⟩ := Plan.mem_dsts_rename.mp hc
  constructor
  · intro writes
    obtain ⟨d', hd', e⟩ := Plan.mem_dsts_rename.mp writes
    obtain ⟨a, rfl, rfl⟩ := Cell.exists_mem_of_on_eq ne e
    exact (apart a hd).1 hd'
  · intro reads
    obtain ⟨d', hd', e⟩ := Plan.mem_uses_rename.mp reads
    obtain ⟨a, rfl, rfl⟩ := Cell.exists_mem_of_on_eq ne e
    exact (apart a hd).2 hd'

theorem independent_of_apart (ne : x.1 ≠ y.1) (h : x.2.Apart y.2) (h' : y.2.Apart x.2) :
    Plan.Independent (threadPlan x) (threadPlan y) :=
  ⟨fun _ => not_mem_threadPlan ne h, fun _ => not_mem_threadPlan ne.symm h'⟩

/-- Whatever the schedule, threads that keep apart in memory and pass no handles end with the same
labels: each schedule of the same threads can be run, and it gives every byte of the shadow
memory and of every thread's registers the labels that the other gives it. -/
theorem run_interleaving (run : Run ThreadStep p xs q) (h : p.Sound) (same : SameThreads xs ys)
    (given : ∀ x ∈ xs, x.2.tags = ∅)
    (apart : ∀ x ∈ xs, ∀ y ∈ xs, x.1 ≠ y.1 → x.2.Apart y.2) :
    ∃ q', Run ThreadStep p ys q' ∧ (q.InIds → q'.InIds → q'.labelsOf = q.labelsOf) := by
  have again : ∀ x ∈ ys, ∀ p' : Process, p'.Sound →
      (∀ t, (p'.threads t).isSome = (p.threads t).isSome) → ∃ q', ThreadStep p' x q' :=
    fun x hx _ sound' alive => threadRun_again run h given sound' alive x (same.mem_iff.mpr hx)
  obtain ⟨q', run', -⟩ := threadRun_of_again h again
  refine ⟨q', run', fun room room' => ?_⟩
  have given' : ∀ x ∈ ys, x.2.tags = ∅ := fun x hx => given x (same.mem_iff.mpr hx)
  rw [threadRun_labelsOf run h given room, threadRun_labelsOf run' h given' room']
  refine (same.foldl_eq (fun x hx y hy ne m => ?_) _).symm
  exact (independent_of_apart ne (apart x hx y hy ne) (apart y hy x hx ne.symm)).comm m

/-- The process that an event of the thread leaves where it returns. -/
def Process.after (p : Process) (x : ThreadId × Event) : Process :=
  match p.threads x.1 with
  | some tc => p.put x.1 tc (x.2.after (p.shadow tc))
  | none => p

theorem ThreadStep.after (alive : p.threads x.1 = some tc) (ok : x.2.WellFormed)
    (given : x.2.tags = ∅) (returns : (x.2.run (p.shadow tc)).map Prod.fst = .ok .returned) :
    ThreadStep p x (p.after x) := by
  rw [Process.after, alive]
  exact .mk alive (Event.step_after ok given returns)

/-- A byte of memory is loaded into AL, or stored from it. -/
def loadFrom (addr : ADDRINT) : Event :=
  .handler ⟨fun _ => none, 0⟩ 0 (.movM2r DFT_REG_RAX 0 addr 1)

def storeTo (addr : ADDRINT) : Event :=
  .handler ⟨fun _ => none, 0⟩ 0 (.movR2m addr DFT_REG_RAX 0 1)

section Copies

variable {a addr addr' : ADDRINT}

theorem mem_notMem_dsts_loadFrom : Cell.mem a ∉ (loadFrom addr).plan.dsts := by
  rintro ⟨b, hb, mv, hmv, write⟩
  obtain rfl := List.mem_singleton.mp hb
  obtain rfl := List.mem_singleton.mp hmv
  cases write

theorem eq_of_mem_uses_loadFrom (h : Cell.mem a ∈ (loadFrom addr).plan.uses) : a = addr := by
  obtain ⟨b, hb, mv, hmv, read⟩ := h
  obtain rfl := List.mem_singleton.mp hb
  obtain rfl := List.mem_singleton.mp hmv
  rw [← byteAt_zero addr]
  exact Cell.mem.inj (Sum.inl.inj (List.mem_singleton.mp read))

/-- The move of a store, if its address is in range. -/
theorem move_of_storeTo {b : Block Cell Input} {mv : Move Cell Input}
    (hb : b ∈ (storeTo addr).plan) (hmv : mv ∈ b) :
    mv = ⟨.mem (byteAt addr 0), [.inl (.reg DFT_REG_RAX 0)]⟩ := by
  obtain rfl := List.mem_singleton.mp hb
  dsimp only [stores] at hmv
  split_ifs at hmv
  · exact List.mem_singleton.mp hmv
  · cases hmv

theorem eq_of_mem_dsts_storeTo (h : Cell.mem a ∈ (storeTo addr).plan.dsts) : a = addr := by
  obtain ⟨b, hb, mv, hmv, write⟩ := h
  obtain rfl := move_of_storeTo hb hmv
  rw [← byteAt_zero addr]
  exact (Cell.mem.inj write).symm

theorem mem_notMem_uses_storeTo : Cell.mem a ∉ (storeTo addr).plan.uses := by
  rintro ⟨b, hb, mv, hmv, read⟩
  obtain rfl := move_of_storeTo hb hmv
  cases List.mem_singleton.mp read

theorem loadFrom_apart (addr : ADDRINT) (e : Event) : (loadFrom addr).Apart e :=
  fun _ write => absurd write mem_notMem_dsts_loadFrom

theorem storeTo_apart_loadFrom (ne : addr ≠ addr') : (storeTo addr).Apart (loadFrom addr') := by
  intro a write
  obtain rfl := eq_of_mem_dsts_storeTo write
  exact ⟨mem_notMem_dsts_loadFrom, fun read => ne (eq_of_mem_uses_loadFrom read)⟩

theorem storeTo_apart_storeTo (ne : addr ≠ addr') : (storeTo addr).Apart (storeTo addr') := by
  intro a write
  obtain rfl := eq_of_mem_dsts_storeTo write
  exact ⟨fun other => ne (eq_of_mem_dsts_storeTo other), mem_notMem_uses_storeTo⟩

end Copies

/-- Two threads, each of which has painted a byte. -/
def twoPainters : Process :=
  (((Process.start.threadInit 1).threadInit 2).after (1, paintByte 0)).after (2, paintByte 1)

/-- Each thread copies its byte elsewhere: one after the other, or in turns. -/
theorem run_interleaving_copies : ∃ q q' : Process,
    Run ThreadStep twoPainters [(1, loadFrom 0), (1, storeTo 0x10), (2, loadFrom 1),
      (2, storeTo 0x11)] q ∧
    Run ThreadStep twoPainters [(2, loadFrom 1), (1, loadFrom 0), (2, storeTo 0x11),
      (1, storeTo 0x10)] q' ∧
    q.labelsOf (.mem 0x10) = {0} ∧ q.labelsOf (.mem 0x11) = {1} ∧
    (q'.InIds → q'.labelsOf = q.labelsOf) := by
  let xs : List (ThreadId × Event) :=
    [(1, loadFrom 0), (1, storeTo 0x10), (2, loadFrom 1), (2, storeTo 0x11)]
  let ys : List (ThreadId × Event) :=
    [(2, loadFrom 1), (1, loadFrom 0), (2, storeTo 0x11), (1, storeTo 0x10)]
  have painting : Run ThreadStep ((Process.start.threadInit 1).threadInit 2)
      [(1, paintByte 0), (2, paintByte 1)] twoPainters :=
    .cons (.after rfl trivial rfl rfl) <| .cons (.after rfl trivial rfl rfl) .nil
  have sound : twoPainters.Sound :=
    threadRun_sound painting ((Process.start_sound.threadInit 1).threadInit 2)
  have run : Run ThreadStep twoPainters xs _ :=
    .cons (.after rfl ⟨by decide, by decide⟩ rfl rfl) <|
    .cons (.after rfl ⟨by decide, by decide⟩ rfl rfl) <|
    .cons (.after rfl ⟨by decide, by decide⟩ rfl rfl) <|
    .cons (.after rfl ⟨by decide, by decide⟩ rfl rfl) .nil
  have same : SameThreads xs ys := by
    intro t
    by_cases one : t = 1
    · subst one
      rfl
    by_cases two : t = 2
    · subst two
      rfl
    simp [xs, ys, entriesOf, Ne.symm one, Ne.symm two]
  have given : ∀ x ∈ xs, x.2.tags = ∅ := by
    simp [xs, loadFrom, storeTo, Event.tags]
  have apart : ∀ x ∈ xs, ∀ y ∈ xs, x.1 ≠ y.1 → x.2.Apart y.2 := by
    simp [xs, loadFrom_apart, storeTo_apart_loadFrom, storeTo_apart_storeTo]
  obtain ⟨q', run', labels⟩ := run_interleaving run sound same given apart
  refine ⟨_, q', run, run', rfl, rfl, labels ?_⟩
  rw [Process.InIds]
  decide

end Runs

end Threads

end LibdftDr
