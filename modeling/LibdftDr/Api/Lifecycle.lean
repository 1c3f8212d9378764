import LibdftDr.Api.Tags
import LibdftDr.Library.Runs

/-!
# Setting up and shutting down

`init` builds the set tables, `shutdown` only forgets that it has. The shadow memory and the
handles of the client have no reset point: after a second `init` they hold ids of tables that
are gone. `stored_ids_keep_meaning_iff` says in which sequences of calls that does no harm.
-/
namespace LibdftDr.Api
open Library Library.Action

/-- What `drmgr_register_tls_field` hands out: a slot of its own, which holds `NULL` for every
thread, or the slot in use. -/
inductive TlsSlot where
  | unused | current

/-- The library as a client sees it. Without a thread context the register file is empty;
`handles` are the tags that calls have returned. -/
structure Process where
  shadow : Shadow
  initialized : Bool
  context : Bool
  handles : List Tag

inductive LifecycleCall where
  | init (slot : TlsSlot)
  | shutdown
  /-- `event_thread_init`. -/
  | threadInit
  | call (c : Call)

/-- The handles that the client passes in. -/
def LifecycleCall.tags : LifecycleCall → Set Tag
  | .call c => c.tags
  | .init _ | .shutdown | .threadInit => ∅

/-- What a register call answers when the thread has no context. -/
def Call.noContext : Call → Option (Option Tag)
  | .getRegTag _ | .getRegTagByte .. | .getRegTagRange _ => some (some clearedVal)
  | .setRegTag .. | .setRegTagByte .. => some none
  | _ => none

namespace Process

/-- Static storage, before any call. -/
def loaded : Process where
  shadow := ⟨⟨[], fun _ => none, fun _ => none⟩, TagDir.new, fun _ _ => clearedVal⟩
  initialized := false
  context := false
  handles := []

/-- The part of `libdft_setup` that concerns tags: a slot for the thread context and
`tagmap_alloc`. -/
def libdftSetup (p : Process) : TlsSlot → Process
  | .unused =>
    { p with
      shadow := ⟨tagmapAlloc, p.shadow.tagDir, fun _ _ => clearedVal⟩
      context := false }
  | .current => { p with shadow := p.shadow.withSets tagmapAlloc }

def init (p : Process) (slot : TlsSlot) : Process :=
  if p.initialized then p else { p.libdftSetup slot with initialized := true }

def shutdown (p : Process) : Process := { p with initialized := false }

def eventThreadInit (p : Process) : Process :=
  { p with shadow := { p.shadow with gprFile := fun _ _ => clearedVal }, context := true }

def call (p : Process) (c : Call) : Except Fault Process :=
  match if p.context then none else c.noContext with
  | some r => .ok { p with handles := p.handles ++ r.toList }
  | none =>
    match c.run p.shadow with
    | .ok (r, s) => .ok { p with shadow := s, handles := p.handles ++ r.toList }
    | .error e => .error e

def run (p : Process) : LifecycleCall → Except Fault Process
  | .init slot => .ok (p.init slot)
  | .shutdown => .ok p.shutdown
  | .threadInit => .ok p.eventThreadInit
  | .call c => p.call c

/-- A call that returns. The client passes in handles it has been given, or the default one. -/
structure Step (p : Process) (e : LifecycleCall) (q : Process) : Prop where
  given : ∀ t ∈ e.tags, t ∈ p.handles ∨ t = clearedVal
  run : p.run e = .ok q

/-- The ids stored in shadow memory, in the register file or in a handle of the client. -/
def ids (p : Process) : Set Tag := {t | (∃ c, p.shadow.cell c = t) ∨ t ∈ p.handles}

/-- A call that sets up again finds no id but 0 in what it does not reset. -/
def Harmless (p : Process) : LifecycleCall → Prop
  | .init slot => p.initialized = false →
      (∀ a, p.shadow.cell (.mem a) = clearedVal) ∧ (∀ t ∈ p.handles, t = clearedVal) ∧
        (slot = .current → ∀ row b, p.shadow.cell (.reg row b) = clearedVal)
  | .shutdown | .threadInit | .call _ => True

end Process

/-- From the first call on, an id that stays stored or held keeps the set it stood for, and is
below the number of sets. -/
def KeepsMeaning (events : List LifecycleCall) : Prop :=
  ∀ as bs cs p q t, events = as ++ bs ++ cs → as ≠ [] → Run Process.Step Process.loaded as p →
    Run (Where Process.Step fun s _ => t ∈ s.ids) p bs q → t ∈ q.ids →
      q.shadow.sets.Knows t ∧ q.shadow.sets.setOf t = p.shadow.sets.setOf t

/-- Every call of the sequence is harmless in the state that it finds. -/
def ResetsHarmless (events : List LifecycleCall) : Prop :=
  ∀ as e bs p, events = as ++ e :: bs → Run Process.Step Process.loaded as p → p.Harmless e

namespace Process

/-- Every id at hand is one of the table. -/
structure Ok (p : Process) : Prop where
  sound : p.shadow.Sound
  handles : ∀ t ∈ p.handles, p.shadow.sets.Knows t

variable {p q : Process} {e : LifecycleCall} {t : Tag} {slot : TlsSlot}

theorem Ok.knows (ok : p.Ok) (ht : t ∈ p.ids) : p.shadow.sets.Knows t := by
  obtain ⟨c, rfl⟩ | ht := ht
  · exact ok.sound.known c
  · exact ok.handles t ht

/-- After a harmless set-up nothing is stored or held. -/
theorem init_empty (harmless : p.Harmless (.init slot)) (h : p.initialized = false) :
    (∀ c, (p.init slot).shadow.cell c = clearedVal) ∧
      ∀ t ∈ (p.init slot).handles, t = clearedVal := by
  obtain ⟨mem, handles, regs⟩ := harmless h
  rw [init, if_neg (by simp [h])]
  cases slot with
  | unused =>
    refine ⟨fun c => ?_, handles⟩
    cases c with
    | reg row b => rfl
    | mem a => exact mem a
  | current =>
    refine ⟨fun c => ?_, handles⟩
    cases c with
    | reg row b => exact regs rfl row b
    | mem a => exact mem a

theorem init_sets (h : p.initialized = false) : (p.init slot).shadow.sets = tagmapAlloc := by
  rw [init, if_neg (by simp [h])]
  cases slot <;> rfl

theorem init_ok (harmless : p.Harmless (.init slot)) (h : p.initialized = false) :
    (p.init slot).Ok := by
  obtain ⟨cells, handles⟩ := init_empty harmless h
  have sound := Shadow.sound_of_empty (init_sets h) cells
  refine ⟨sound, fun t ht => ?_⟩
  rw [handles t ht]
  exact sound.live.knows_clearedVal

/-- A call of the interface extends the table and returns an id of it. -/
theorem call_ok {c : Call} (ok : p.Ok) (given : ∀ t ∈ c.tags, t ∈ p.handles ∨ t = clearedVal)
    (run : p.call c = .ok q) : q.Ok ∧ p.shadow.sets.Grows q.shadow.sets := by
  unfold call at run
  split at run
  · next r absent =>
    cases run
    refine ⟨⟨ok.sound, fun t ht => ?_⟩, SetTable.Grows.refl _⟩
    obtain ht | ht := List.mem_append.mp ht
    · exact ok.handles t ht
    · obtain rfl : t = clearedVal := by
        cases c <;> grind [Call.noContext]
      exact ok.sound.live.knows_clearedVal
  · split at run
    · next r s returned =>
      cases run
      have flow : Flow c.writes Set.univ c.tags _ _ c.run :=
        Call.flow (Set.subset_univ _) subset_rfl
      have holds : ∀ v ∈ c.tags, p.shadow.Holds Set.univ v := by
        intro v hv
        refine ⟨?_, fun _ => Set.subset_univ _⟩
        obtain held | rfl := given v hv
        · exact ok.handles v held
        · exact ok.sound.live.knows_clearedVal
      obtain ⟨-, sound, -, le⟩ := flow.of_ok_of_holds ok.sound ok.sound.within_univ holds returned
      refine ⟨⟨sound, fun t ht => ?_⟩, le.grows⟩
      obtain ht | ht := List.mem_append.mp ht
      · exact le.grows.knows (ok.handles t ht)
      · have out := flow.holds_out ok.sound ok.sound.within_univ holds returned
        exact (out t (by simpa using ht)).1
    · cases run

/-- A harmless call keeps the ids inside the table, and what an id stands for. -/
theorem Step.keeps (step : Step p e q) (ok : p.Ok) (harmless : p.Harmless e) :
    q.Ok ∧ ∀ t ∈ q.ids, p.shadow.sets.Knows t →
      q.shadow.sets.setOf t = p.shadow.sets.setOf t := by
  have run := step.run
  cases e with
  | init slot =>
    cases run
    by_cases h : p.initialized = true
    · have same : p.init slot = p := if_pos h
      rw [same]
      exact ⟨ok, fun t _ _ => rfl⟩
    · have off : p.initialized = false := Bool.not_eq_true _ ▸ h
      have ok' := init_ok harmless off
      obtain ⟨cells, handles⟩ := init_empty harmless off
      refine ⟨ok', fun t ht _ => ?_⟩
      obtain rfl : t = clearedVal := by
        obtain ⟨c, rfl⟩ | ht := ht
        · exact cells c
        · exact handles t ht
      rw [ok'.sound.live.setOf_clearedVal, ok.sound.live.setOf_clearedVal]
  | shutdown =>
    cases run
    exact ⟨⟨ok.sound, ok.handles⟩, fun t _ _ => rfl⟩
  | threadInit =>
    cases run
    refine ⟨⟨⟨ok.sound.live, fun c => ?_, ok.sound.exact⟩, ok.handles⟩, fun t _ _ => rfl⟩
    cases c with
    | reg row b => exact ok.sound.live.knows_clearedVal
    | mem a => exact ok.sound.known (.mem a)
  | call c =>
    obtain ⟨ok', grows⟩ := call_ok ok step.given run
    exact ⟨ok', fun t _ known => grows.setOf known⟩

/-- From the first set-up on, every state is one whose ids are in the table. -/
theorem ok_of_run {events as cs : List LifecycleCall} (harmless : ResetsHarmless events)
    (first : events.head? = some (.init slot)) (split : events = as ++ cs) (ne : as ≠ [])
    (run : Run Step loaded as p) : p.Ok := by
  induction run generalizing cs with
  | nil => exact absurd rfl ne
  | snoc before step ih =>
    next as' e p' q' =>
    have split' : events = as' ++ e :: cs := by simp [split]
    have here : p'.Harmless e := harmless as' e cs p' split' before
    obtain rfl | ne' := eq_or_ne as' []
    · -- the first call sets up in the state the library is loaded in
      obtain rfl := before.eq_of_nil
      obtain rfl : e = .init slot := by simpa [split'] using first
      cases step.run
      exact init_ok here rfl
    · exact (step.keeps (ih split' ne') here).1

/-- Along a run that an id survives, it keeps its set. -/
theorem setOf_of_run {events as bs cs : List LifecycleCall} (harmless : ResetsHarmless events)
    (split : events = as ++ bs ++ cs) (before : Run Step loaded as p) (ok : p.Ok)
    (run : Run (Where Step fun s _ => t ∈ s.ids) p bs q) (ht : t ∈ q.ids) :
    q.Ok ∧ q.shadow.sets.setOf t = p.shadow.sets.setOf t := by
  induction run generalizing cs with
  | nil => exact ⟨ok, rfl⟩
  | snoc run step ih =>
    next bs' e p' q' =>
    obtain ⟨step, stays⟩ := step
    have split' : events = as ++ bs' ++ e :: cs := by simp [split]
    obtain ⟨ok', same⟩ := ih split' stays
    have here : p'.Harmless e :=
      harmless (as ++ bs') e cs p' split' (before.append run.forget)
    obtain ⟨ok'', kept⟩ := step.keeps ok' here
    exact ⟨ok'', (kept t ht (ok'.knows stays)).trans same⟩

/-- An id that survives a set-up is 0 if it is still one of the table. -/
theorem eq_clearedVal_of_keeps {as bs : List LifecycleCall}
    (keeps : KeepsMeaning (as ++ .init slot :: bs)) (ne : as ≠ []) (run : Run Step loaded as p)
    (off : p.initialized = false) (before : t ∈ p.ids) (after : t ∈ (p.init slot).ids) :
    t = clearedVal := by
  have step : Step p (.init slot) (p.init slot) := ⟨by simp [LifecycleCall.tags], rfl⟩
  have last : Run (Where Step fun s _ => t ∈ s.ids) p [.init slot] (p.init slot) :=
    .snoc .nil ⟨step, before⟩
  obtain ⟨known, -⟩ := keeps as [.init slot] bs p _ t (by simp) ne run last after
  rw [init_sets off] at known
  have zero : t.id.toNat < 1 := known
  exact Tag.ext (BitVec.eq_of_toNat_eq (by simp [clearedVal]; omega))

end Process

/-- In a sequence of calls that starts with `init`, every id that stays stored or held keeps the
set it stood for, if and only if no call that sets up again finds an id in the shadow memory or
with the client. -/
theorem stored_ids_keep_meaning_iff (slot : TlsSlot) (es : List LifecycleCall) :
    KeepsMeaning (.init slot :: es) ↔ ResetsHarmless (.init slot :: es) := by
  constructor
  · intro keeps as e bs p split run
    cases e with
    | shutdown | threadInit | call => trivial
    | init slot' =>
      intro off
      rw [split] at keeps
      have zero : ∀ t, as ≠ [] → t ∈ p.ids → t ∈ (p.init slot').ids → t = clearedVal :=
        fun t ne => Process.eq_clearedVal_of_keeps keeps ne run off
      obtain rfl | ne := eq_or_ne as []
      · obtain rfl := run.eq_of_nil
        exact ⟨fun a => TagDir.tagAt_new a, by simp [Process.loaded], fun _ _ _ => rfl⟩
      · have fields : (p.init slot').handles = p.handles ∧
            ∀ a, (p.init slot').shadow.cell (.mem a) = p.shadow.cell (.mem a) := by
          rw [Process.init, if_neg (by simp [off])]
          cases slot' <;> exact ⟨rfl, fun _ => rfl⟩
        refine ⟨fun a => ?_, fun t ht => ?_, ?_⟩
        · exact zero _ ne (.inl ⟨.mem a, rfl⟩) (.inl ⟨.mem a, fields.2 a⟩)
        · exact zero t ne (.inr ht) (.inr (fields.1 ▸ ht))
        · rintro rfl row b
          refine zero _ ne (.inl ⟨.reg row b, rfl⟩) (.inl ⟨.reg row b, ?_⟩)
          rw [Process.init, if_neg (by simp [off])]
          rfl
  · intro harmless as bs cs p q t split ne before run ht
    have split' : .init slot :: es = as ++ (bs ++ cs) := by rw [split, List.append_assoc]
    have ok : p.Ok := Process.ok_of_run harmless rfl split' ne before
    obtain ⟨ok', same⟩ := Process.setOf_of_run harmless split before ok run ht
    exact ⟨ok'.knows ht, same⟩

/-- `init`, then `make_tag(5)`, stored at one address, then `shutdown`. -/
def storedThenShutdown : List LifecycleCall :=
  [.init .unused, .call (.makeTag 5), .call (.setMemTag 0x1000 ⟨1⟩), .shutdown]

def Process.afterShutdown : Process where
  shadow := ⟨(Tag.set 5 tagmapAlloc).2, tagmapSetbWithTag TagDir.new 0x1000 ⟨1⟩,
    fun _ _ => clearedVal⟩
  initialized := false
  context := false
  handles := [⟨1⟩]

theorem storedThenShutdown_run :
    Run Process.Step Process.loaded storedThenShutdown Process.afterShutdown := by
  have none : ∀ (p : Process) (e : LifecycleCall), e.tags = ∅ →
      ∀ t ∈ e.tags, t ∈ p.handles ∨ t = clearedVal := by
    intro p e h t ht
    rw [h] at ht
    cases ht
  have held : ∀ t ∈ (LifecycleCall.call (.setMemTag 0x1000 ⟨1⟩)).tags,
      t ∈ [(Tag.set 5 tagmapAlloc).1] ∨ t = clearedVal := by
    rintro t rfl
    exact .inl (by decide)
  exact .snoc (.snoc (.snoc (.snoc .nil ⟨none _ _ rfl, rfl⟩) ⟨none _ _ rfl, rfl⟩) ⟨held, rfl⟩)
    ⟨none _ _ rfl, rfl⟩

/-- A second `init` leaves id 1 in the shadow of an address and with the client, and one set in
the table. -/
theorem second_init_dangles :
    ¬ ∀ (slot : TlsSlot) (es : List LifecycleCall), KeepsMeaning (.init slot :: es) := by
  intro claim
  have keeps : KeepsMeaning (storedThenShutdown ++ [.init .unused]) := claim .unused _
  have held : (⟨1⟩ : Tag) ∈ Process.afterShutdown.ids := .inr (by decide)
  have kept : (⟨1⟩ : Tag) ∈ (Process.afterShutdown.init .unused).ids := .inr (by decide)
  have zero := Process.eq_clearedVal_of_keeps keeps (by decide) storedThenShutdown_run rfl held kept
  exact absurd zero (by decide)

end LibdftDr.Api
