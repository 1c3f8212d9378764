import LibdftDr.Compat
import LibdftDr.Library.Runs
import Mathlib.Data.Finset.Erase
import Mathlib.Data.Finset.Insert
import Mathlib.Data.List.Infix

/-!
# Tracked file descriptors

`fdset` is the set of descriptors that resolve to the taint source. The post hooks of the
calls that make and unmake descriptors keep it; `FdStep` runs them beside the kernel's
descriptor table.
-/
namespace LibdftDr
open Library

/-- Argument indices are numerals below 6. -/
instance argNumNeZero : @NeZero ℕ Zero.ofOfNat0 6 := ⟨by decide⟩

/-- The saved arguments and the raw result of a system call. -/
structure SyscallCtx where
  arg : Fin 6 → ADDRINT
  ret : ADDRINT

/-- `(int)` of a register. -/
def toInt32 (x : ADDRINT) : INT32 := x.setWidth 32

/-- What `fdname` and `stat` report when a hook runs. -/
structure OsView where
  fdname : INT32 → Text
  pathIsdir : Text → Bool

/-- `std::string::find`: the first position where `pat` stands in `s`. -/
def findText (s pat : Text) : Option ℕ := s.tails.findIdx? fun t => pat.isPrefixOf t

theorem findText_isSome (s pat : Text) : (findText s pat).isSome = true ↔ pat <:+: s := by
  simp only [findText, List.findIdx?_isSome, List.any_eq_true, List.mem_tails,
    List.isPrefixOf_iff_prefix]
  exact (exists_congr fun _ => and_comm).trans List.infix_iff_prefix_suffix.symm

/-- 1 for a path that is not the taint source: one that does not contain `filename`. -/
def inDtrackerWhitelist (filename fname : Text) : Bool := (findText fname filename).isNone

/-! ## The hooks -/

def postOpenHook (os : OsView) (filename : Text) (ctx : SyscallCtx) (fdset : Finset INT32) :
    Finset INT32 :=
  let fd := toInt32 ctx.ret
  let fdn := os.fdname fd
  if !inDtrackerWhitelist filename fdn && !os.pathIsdir fdn then insert fd fdset else fdset

def postOpenatHook (os : OsView) (filename : Text) (ctx : SyscallCtx) (fdset : Finset INT32) :
    Finset INT32 := postOpenHook os filename ctx fdset

/-- The body that `dup2` and `dup3` share; `newfd` is an argument. -/
def dupOnto (ctx : SyscallCtx) (fdset : Finset INT32) : Finset INT32 :=
  let oldfd := toInt32 (ctx.arg 0)
  let newfd := toInt32 (ctx.arg 1)
  if oldfd ∈ fdset then insert newfd fdset else fdset

def postDup3Hook (ctx : SyscallCtx) (fdset : Finset INT32) : Finset INT32 := dupOnto ctx fdset

def postDup2Hook (ctx : SyscallCtx) (fdset : Finset INT32) : Finset INT32 := dupOnto ctx fdset

def postDupHook (ctx : SyscallCtx) (fdset : Finset INT32) : Finset INT32 :=
  let oldfd := toInt32 (ctx.arg 0)
  let newfd := toInt32 ctx.ret
  if oldfd ∈ fdset ∧ newfd ≠ -1 then insert newfd fdset else fdset

def postCloseHook (ctx : SyscallCtx) (fdset : Finset INT32) : Finset INT32 :=
  if (toInt32 ctx.ret).toInt < 0 then fdset else fdset.erase (toInt32 (ctx.arg 0))

/-! ## The kernel's table -/

/-- How the file behind a descriptor was opened. -/
inductive OpenFile where
  /-- Before the program ran. -/
  | inherited
  /-- By `open` or `openat`, under the path that `/proc/self/fd` shows. -/
  | opened (path : Text) (isDir : Bool)

structure FdWorld where
  table : INT32 → Option OpenFile
  fdset : Finset INT32

/-- Before the first call: whatever descriptors were inherited, none of them tracked. -/
def FdWorld.init (table : INT32 → Option Unit) : FdWorld where
  table fd := (table fd).map fun _ => .inherited
  fdset := ∅

/-- A successful call, as its post hook sees it. -/
inductive FdCall where
  | openFile (os : OsView) (ctx : SyscallCtx)
  | openatFile (os : OsView) (ctx : SyscallCtx)
  | dup (ctx : SyscallCtx)
  | dup2 (ctx : SyscallCtx)
  | dup3 (ctx : SyscallCtx)
  | close (ctx : SyscallCtx)

/-- `fd` is free and can be given out. -/
def FdWorld.Free (w : FdWorld) (fd : INT32) : Prop := w.table fd = none ∧ 0 ≤ fd.toInt

/-- What the view shows of a descriptor that has just been opened. -/
def OsView.shows (os : OsView) (fd : INT32) : OpenFile :=
  .opened (os.fdname fd) (os.pathIsdir (os.fdname fd))

inductive FdStep (filename : Text) (w : FdWorld) : FdCall → FdWorld → Prop
  | openFile {os ctx} (free : w.Free (toInt32 ctx.ret)) :
    FdStep filename w (.openFile os ctx)
      { table := Function.update w.table (toInt32 ctx.ret) (some (os.shows (toInt32 ctx.ret)))
        fdset := postOpenHook os filename ctx w.fdset }
  | openatFile {os ctx} (free : w.Free (toInt32 ctx.ret)) :
    FdStep filename w (.openatFile os ctx)
      { table := Function.update w.table (toInt32 ctx.ret) (some (os.shows (toInt32 ctx.ret)))
        fdset := postOpenatHook os filename ctx w.fdset }
  | dup {ctx f} (live : w.table (toInt32 (ctx.arg 0)) = some f) (free : w.Free (toInt32 ctx.ret)) :
    FdStep filename w (.dup ctx)
      { table := Function.update w.table (toInt32 ctx.ret) (some f)
        fdset := postDupHook ctx w.fdset }
  | dup2 {ctx f} (live : w.table (toInt32 (ctx.arg 0)) = some f) :
    FdStep filename w (.dup2 ctx)
      { table := Function.update w.table (toInt32 (ctx.arg 1)) (some f)
        fdset := postDup2Hook ctx w.fdset }
  | dup3 {ctx f} (live : w.table (toInt32 (ctx.arg 0)) = some f) :
    FdStep filename w (.dup3 ctx)
      { table := Function.update w.table (toInt32 (ctx.arg 1)) (some f)
        fdset := postDup3Hook ctx w.fdset }
  | close {ctx f} (live : w.table (toInt32 (ctx.arg 0)) = some f)
      (success : toInt32 ctx.ret = 0) :
    FdStep filename w (.close ctx)
      { table := Function.update w.table (toInt32 (ctx.arg 0)) none
        fdset := postCloseHook ctx w.fdset }

/-! ## What is tracked -/

/-- The file is the taint source: opened under a path that contains the source filename, and
not a directory. -/
def OpenFile.IsSource (filename : Text) : OpenFile → Prop
  | .inherited => False
  | .opened path isDir => filename <:+: path ∧ isDir = false

/-- A descriptor is tracked exactly when it is open and refers to the taint source. -/
def FdWorld.Tracks (filename : Text) (w : FdWorld) : Prop :=
  ∀ fd, fd ∈ w.fdset ↔ ∃ f, w.table fd = some f ∧ f.IsSource filename

/-- A `dup2` or `dup3` that makes a tracked descriptor refer to an untracked file. -/
def FdWorld.Untracks (w : FdWorld) : FdCall → Prop
  | .dup2 ctx | .dup3 ctx => toInt32 (ctx.arg 0) ∉ w.fdset ∧ toInt32 (ctx.arg 1) ∈ w.fdset
  | _ => False

section Hooks

variable {filename : Text} {os : OsView} {ctx : SyscallCtx} {fdset : Finset INT32} {fd : INT32}

/-- The test of the open hook is the property itself. -/
theorem mem_postOpenHook : fd ∈ postOpenHook os filename ctx fdset ↔
    (fd = toInt32 ctx.ret ∧ (os.shows (toInt32 ctx.ret)).IsSource filename) ∨ fd ∈ fdset := by
  have test : (!inDtrackerWhitelist filename (os.fdname (toInt32 ctx.ret)) &&
      !os.pathIsdir (os.fdname (toInt32 ctx.ret))) = true ↔
      (os.shows (toInt32 ctx.ret)).IsSource filename := by
    simp only [OsView.shows, OpenFile.IsSource, ← findText_isSome, inDtrackerWhitelist,
      Bool.and_eq_true, Bool.not_eq_true', ← Option.not_isSome, Bool.not_not]
  simp only [postOpenHook]
  split_ifs with h
  · simp [test.mp h]
  · simp [mt test.mpr h]

theorem mem_dupOnto : fd ∈ dupOnto ctx fdset ↔
    (fd = toInt32 (ctx.arg 1) ∧ toInt32 (ctx.arg 0) ∈ fdset) ∨ fd ∈ fdset := by
  simp only [dupOnto]
  split_ifs with h <;> simp [h]

theorem mem_postDupHook (valid : 0 ≤ (toInt32 ctx.ret).toInt) : fd ∈ postDupHook ctx fdset ↔
    (fd = toInt32 ctx.ret ∧ toInt32 (ctx.arg 0) ∈ fdset) ∨ fd ∈ fdset := by
  have ne : toInt32 ctx.ret ≠ -1 := fun e => by rw [e] at valid; exact absurd valid (by decide)
  simp only [postDupHook]
  split_ifs with h
  · simp [h.1]
  · have : toInt32 (ctx.arg 0) ∉ fdset := fun hmem => h ⟨hmem, ne⟩
    simp [this]

theorem mem_postCloseHook (success : toInt32 ctx.ret = 0) : fd ∈ postCloseHook ctx fdset ↔
    fd ≠ toInt32 (ctx.arg 0) ∧ fd ∈ fdset := by
  have : ¬ (toInt32 ctx.ret).toInt < 0 := by rw [success]; decide
  simp [postCloseHook, this]

end Hooks

namespace FdWorld

variable {filename : Text} {w w' : FdWorld}

theorem init_tracks (table : INT32 → Option Unit) : (FdWorld.init table).Tracks filename := by
  intro fd
  simp [FdWorld.init, OpenFile.IsSource]

/-- One descriptor comes to refer to `f`; the others are left alone. -/
theorem Tracks.assign_iff (h : w.Tracks filename) {fd : INT32} {f : OpenFile}
    {fdset : Finset INT32} (others : ∀ x ≠ fd, x ∈ fdset ↔ x ∈ w.fdset) :
    Tracks filename ⟨Function.update w.table fd (some f), fdset⟩ ↔
      (fd ∈ fdset ↔ f.IsSource filename) := by
  constructor
  · intro g
    simpa using g fd
  · intro self x
    by_cases hx : x = fd
    · subst hx; simpa using self
    · simpa [hx] using (others x hx).trans (h x)

/-- A free descriptor is not tracked. -/
theorem Tracks.not_mem_of_free (h : w.Tracks filename) {fd : INT32} (free : w.Free fd) :
    fd ∉ w.fdset := by
  simp [h fd, free.1]

/-- A live descriptor is tracked exactly when its file is the source. -/
theorem Tracks.mem_of_live (h : w.Tracks filename) {fd : INT32} {f : OpenFile}
    (live : w.table fd = some f) : fd ∈ w.fdset ↔ f.IsSource filename := by
  simp [h fd, live]

theorem Tracks.open_step (h : w.Tracks filename) {os : OsView} {ctx : SyscallCtx}
    (free : w.Free (toInt32 ctx.ret)) :
    Tracks filename
      { table := Function.update w.table (toInt32 ctx.ret) (some (os.shows (toInt32 ctx.ret)))
        fdset := postOpenHook os filename ctx w.fdset } := by
  refine (h.assign_iff fun x hx => ?_).mpr ?_
  · simp [mem_postOpenHook, hx]
  · simp [mem_postOpenHook, h.not_mem_of_free free]

/-- After `dup2` or `dup3` the target is right unless it was tracked and the origin was not. -/
theorem Tracks.dupOnto_iff (h : w.Tracks filename) {ctx : SyscallCtx} {f : OpenFile}
    (live : w.table (toInt32 (ctx.arg 0)) = some f) :
    Tracks filename
      { table := Function.update w.table (toInt32 (ctx.arg 1)) (some f)
        fdset := dupOnto ctx w.fdset } ↔
      ¬ (toInt32 (ctx.arg 0) ∉ w.fdset ∧ toInt32 (ctx.arg 1) ∈ w.fdset) := by
  rw [h.assign_iff fun x hx => by simp [mem_dupOnto, hx], ← h.mem_of_live live, mem_dupOnto]
  tauto

/-- A step keeps the tracking right exactly when it does not untrack. -/
theorem Tracks.step_iff (h : w.Tracks filename) {c : FdCall} (step : FdStep filename w c w') :
    w'.Tracks filename ↔ ¬ w.Untracks c := by
  cases step with
  | openFile free => exact iff_of_true (h.open_step free) not_false
  | openatFile free => exact iff_of_true (h.open_step free) not_false
  | dup live free =>
    refine iff_of_true ((h.assign_iff fun x hx => ?_).mpr ?_) not_false
    · simp [mem_postDupHook free.2, hx]
    · simp [mem_postDupHook free.2, h.not_mem_of_free free, h.mem_of_live live]
  | dup2 live => exact h.dupOnto_iff live
  | dup3 live => exact h.dupOnto_iff live
  | @close ctx f live success =>
    refine iff_of_true (fun x => ?_) not_false
    rw [mem_postCloseHook success]
    by_cases hx : x = toInt32 (ctx.arg 0)
    · subst hx; simp
    · simp [hx, h x]

end FdWorld

/-- `fdset` is right after every call of a run in which no `dup2` or `dup3` puts an untracked
file in the place of a tracked one, and such a step is the only one that makes it wrong. -/
theorem fdset_tracks {filename : Text} {table : INT32 → Option Unit} {calls : List FdCall}
    {w : FdWorld}
    (run : Run (Where (FdStep filename) fun w c => ¬ w.Untracks c) (FdWorld.init table) calls w) :
    w.Tracks filename ∧
      ∀ c w', FdStep filename w c w' → (w'.Tracks filename ↔ ¬ w.Untracks c) := by
  have tracks : w.Tracks filename :=
    run.invariant (FdWorld.init_tracks table) fun _ _ _ h step => (h.step_iff step.1).mpr step.2
  exact ⟨tracks, fun c w' step => tracks.step_iff step⟩

/-- Arguments and result of a call on small descriptors. -/
def fdCtx (arg0 arg1 ret : ADDRINT) : SyscallCtx where
  arg i := if i = 0 then arg0 else if i = 1 then arg1 else 0
  ret := ret

/-- Descriptor 3 is `in.dat`, descriptor 4 is `log`. -/
def twoFiles : OsView where
  fdname fd := if fd = 3 then ['i', 'n', '.', 'd', 'a', 't'] else ['l', 'o', 'g']
  pathIsdir _ := false

/-- The source is opened, duplicated and closed; the duplicate stays tracked. -/
theorem fdset_tracks_dup : ∃ w,
    Run (Where (FdStep ['i', 'n']) fun w c => ¬ w.Untracks c) (FdWorld.init fun _ => none)
      [.openFile twoFiles (fdCtx 0 0 3), .dup (fdCtx 3 0 4), .close (fdCtx 3 0 0)] w ∧
    w.Tracks ['i', 'n'] := by
  have run : Run (Where (FdStep ['i', 'n']) fun w c => ¬ w.Untracks c)
      (FdWorld.init fun _ => none)
      [.openFile twoFiles (fdCtx 0 0 3), .dup (fdCtx 3 0 4), .close (fdCtx 3 0 0)] _ :=
    .cons ⟨.openFile ⟨rfl, by decide⟩, not_false⟩ <|
    .cons ⟨.dup rfl ⟨rfl, by decide⟩, not_false⟩ <|
    .cons ⟨.close rfl (by decide), not_false⟩ .nil
  exact ⟨_, run, (fdset_tracks run).1⟩

/-- `dup2` of `log` onto the descriptor of the source leaves that descriptor tracked. -/
theorem fdset_keeps_replaced :
    ¬ ∀ (filename : Text) (table : INT32 → Option Unit) (calls : List FdCall) (w : FdWorld),
      Run (FdStep filename) (FdWorld.init table) calls w → w.Tracks filename := by
  intro claim
  have run : Run (FdStep ['i', 'n']) (FdWorld.init fun _ => none)
      [.openFile twoFiles (fdCtx 0 0 3), .openFile twoFiles (fdCtx 0 0 4), .dup2 (fdCtx 4 3 3)] _ :=
    .cons (.openFile ⟨rfl, by decide⟩) <|
    .cons (.openFile ⟨rfl, by decide⟩) <|
    .cons (.dup2 rfl) .nil
  obtain ⟨f, hf, source⟩ := (claim _ _ _ _ run 3).mp (by decide)
  obtain rfl : twoFiles.shows 4 = f := Option.some.inj hf
  exact absurd source.1 (by decide)

end LibdftDr
