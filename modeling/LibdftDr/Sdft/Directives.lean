import LibdftDr.Library.Configuration
import LibdftDr.Sdft.Conservative

/-!
# How a routine's summary is resolved

A file is a list of directives, one for each line that is understood. The tables hold the last
policy, the last summary of each function and every alias. A routine gets its own summary, else
that of the first alias that matches it and leads to a summary, else what the policy says; where
the lines of different kinds stand relative to each other makes no difference.
-/
namespace LibdftDr
open Library

/-! ## Directives -/

/-- What one line says. -/
inductive Directive where
  | policy (p : SdftPolicy)
  | alias (r : AliasRule)
  | func (name : Text) (s : SummaryEntry)

namespace Directive

def apply (tb : SummaryTable) : Directive → SummaryTable
  | .policy p => { tb with policy := p }
  | .alias r => { tb with aliases := tb.aliases ++ [r] }
  | .func name s => { tb with funcs := Function.update tb.funcs name (some s) }

def policy? : Directive → Option SdftPolicy
  | .policy p => some p
  | _ => none

def alias? : Directive → Option AliasRule
  | .alias r => some r
  | _ => none

/-- The summary that the line gives to the function of this name. -/
def entry? (name : Text) : Directive → Option SummaryEntry
  | .func n s => if n = name then some s else none
  | _ => none

end Directive

def readPolicy : List Text → Option Directive
  | value :: _ =>
    if value = "optimistic".toList then some (.policy .optimistic)
    else if value = "conservative".toList then some (.policy .conservative)
    else none
  | [] => none

def readAlias : List Text → Option Directive
  | pattern :: canonical :: _ => some (.alias ⟨pattern, canonical⟩)
  | _ => none

def readFunc : List Text → Option Directive
  | name :: shape :: fields =>
    (parseShape shape).map fun shape =>
      .func name (parseFields fields { SummaryEntry.new with shape := shape })
  | _ => none

def readWords : List Text → Option Directive
  | [] => none
  | kw :: args =>
    if kw = "POLICY".toList then readPolicy args
    else if kw = "ALIAS".toList then readAlias args
    else if kw = "FUNC".toList then readFunc args
    else none

/-- The tokens of a line without the blanks and line ends behind it. -/
def lineWords (raw : Text) : List Text := splitWs (rstrip raw)

def readLine (raw : Text) : Option Directive := readWords (lineWords raw)

/-- What the file says, line by line. -/
def directives (content : Text) : List Directive := (content.splitOn '\n').filterMap readLine

/-! ## The tables are what the directives leave -/

/-- A line that begins with the comment sign has no keyword. -/
theorem readWords_comment {word : Text} (words : List Text) (h : word.head? = some '#') :
    readWords (word :: words) = none := by
  have policy : word ≠ "POLICY".toList := by rintro rfl; cases h
  have aliases : word ≠ "ALIAS".toList := by rintro rfl; cases h
  have func : word ≠ "FUNC".toList := by rintro rfl; cases h
  rw [readWords, if_neg policy, if_neg aliases, if_neg func]

theorem readWords_alias (args : List Text) :
    readWords ("ALIAS".toList :: args) = readAlias args := by
  rw [readWords, if_neg (by decide), if_pos rfl]

theorem readWords_func (args : List Text) :
    readWords ("FUNC".toList :: args) = readFunc args := by
  rw [readWords, if_neg (by decide), if_neg (by decide), if_pos rfl]

theorem splitWs_strip (raw : Text) : splitWs (strip raw) = lineWords raw :=
  tokens_dropWhile (rstrip raw)

theorem parsePolicy_eq (kw : Text) (args : List Text) (tb : SummaryTable) :
    parsePolicy (kw :: args) tb = (readPolicy args).elim tb (Directive.apply tb) := by
  cases args with
  | nil => rfl
  | cons value args =>
    dsimp only [parsePolicy, readPolicy]
    split_ifs <;> rfl

theorem parseAlias_eq (kw : Text) (args : List Text) (tb : SummaryTable) :
    parseAlias (kw :: args) tb = (readAlias args).elim tb (Directive.apply tb) := by
  rcases args with _ | ⟨pattern, _ | ⟨canonical, args⟩⟩ <;> rfl

theorem parseFunc_eq (kw : Text) (args : List Text) (tb : SummaryTable) :
    parseFunc (kw :: args) tb = (readFunc args).elim tb (Directive.apply tb) := by
  rcases args with _ | ⟨name, _ | ⟨shape, fields⟩⟩
  · rfl
  · rfl
  · dsimp only [parseFunc, readFunc]
    cases parseShape shape <;> rfl

theorem parseLine_eq (raw : Text) (tb : SummaryTable) :
    parseLine raw tb = (readLine raw).elim tb (Directive.apply tb) := by
  rw [readLine, ← splitWs_strip]
  simp only [parseLine]
  split_ifs with skipped
  · -- an empty line has no token, and the first token of a comment is no keyword
    suffices silent : readWords (splitWs (strip raw)) = none by rw [silent]; rfl
    generalize strip raw = line at skipped
    obtain rfl | comment := skipped
    · rfl
    · obtain ⟨rest, rfl⟩ : ∃ rest, line = '#' :: rest := by
        cases line with
        | nil => cases comment
        | cons c rest => exact ⟨rest, by cases comment; rfl⟩
      obtain ⟨w, ws, words⟩ := tokens_cons_of_not (p := isBlank) (c := '#') rfl rest
      exact (congrArg readWords words).trans (readWords_comment ws rfl)
  · cases splitWs (strip raw) with
    | nil => rfl
    | cons kw args =>
      dsimp only [readWords]
      split_ifs
      · exact parsePolicy_eq kw args tb
      · exact parseAlias_eq kw args tb
      · exact parseFunc_eq kw args tb
      · rfl

theorem parseLines_eq (content : Text) (tb : SummaryTable) :
    parseLines content tb = (directives content).foldl Directive.apply tb := by
  unfold parseLines directives
  induction content.splitOn '\n' generalizing tb with
  | nil => rfl
  | cons line lines ih =>
    rw [List.foldl_cons, ih, parseLine_eq]
    cases h : readLine line with
    | none => rw [List.filterMap_cons_none h]; rfl
    | some d => rw [List.filterMap_cons_some h]; rfl

section Apply

variable (ds : List Directive) (tb : SummaryTable)

theorem foldl_policy : (ds.foldl Directive.apply tb).policy =
    (lastOf Directive.policy? ds).getD tb.policy := by
  have one : ∀ (t : SummaryTable) d,
      some (Directive.apply t d).policy = (Directive.policy? d).or (some t.policy) := by
    intro t d
    cases d <;> rfl
  have last := get_foldl (fun t : SummaryTable => some t.policy) one ds tb
  rw [Option.or_some] at last
  exact Option.some.inj last

theorem foldl_funcs (name : Text) : (ds.foldl Directive.apply tb).funcs name =
    (lastOf (Directive.entry? name) ds).or (tb.funcs name) := by
  refine get_foldl (fun t : SummaryTable => t.funcs name) (fun t d => ?_) ds tb
  cases d with
  | policy => rfl
  | «alias» => rfl
  | func n s =>
    by_cases h : n = name
    · simp [Directive.apply, Directive.entry?, h]
    · simp [Directive.apply, Directive.entry?, h, Function.update_of_ne (Ne.symm h)]

theorem foldl_aliases : (ds.foldl Directive.apply tb).aliases =
    tb.aliases ++ ds.filterMap Directive.alias? := by
  induction ds generalizing tb with
  | nil => simp
  | cons d ds ih =>
    rw [List.foldl_cons, ih]
    cases d <;> simp [Directive.apply, Directive.alias?, List.filterMap_cons]

end Apply

/-! ## Looking a name up -/

/-- A pattern is the name itself, or what stands before a final `*` begins the name. -/
def AliasRule.Matches (r : AliasRule) (name : Text) : Prop :=
  r.pattern = name ∨ r.pattern.getLast? = some '*' ∧ r.pattern.dropLast <+: name

instance (r : AliasRule) (name : Text) : Decidable (r.Matches name) :=
  inferInstanceAs (Decidable (_ ∨ _ ∧ _))

/-- The default as loading sets it up in empty tables. -/
def conservativeSummary : SummaryEntry where
  toSummary := unionOfArgs
  buf := -1

/-- The summary that the file gives to a function: the last one. -/
def funcOf (ds : List Directive) (name : Text) : Option SummaryEntry :=
  lastOf (Directive.entry? name) ds

/-- The first alias that matches and whose canonical name has a summary anywhere. -/
def aliasOf (ds : List Directive) (name : Text) : Option SummaryEntry :=
  (ds.filterMap Directive.alias?).findSome? fun r =>
    if r.Matches name then funcOf ds r.canonical else none

/-- What the policy gives to a routine that no line speaks of. -/
def defaultOf (ds : List Directive) : Option SummaryEntry :=
  if lastOf Directive.policy? ds = some .conservative then some conservativeSummary else none

/-- The summary of a routine, by what the lines of the file say. -/
def resolve (ds : List Directive) (name : Text) : Option SummaryEntry :=
  ((funcOf ds name).or (aliasOf ds name)).or (defaultOf ds)

/-- `strncmp` compares all of the prefix with a name that has no null character. -/
theorem strncmpEq_iff {name pre : Text} (cname : '\x00' ∉ name) (len : pre.length ≤ name.length) :
    strncmpEq pre.length name pre = true ↔ pre <+: name := by
  induction pre generalizing name with
  | nil => simp [strncmpEq]
  | cons p pre ih =>
    cases name with
    | nil => cases len
    | cons c name =>
      have hc : c ≠ '\x00' := fun h => cname (h ▸ List.mem_cons_self)
      have rest := ih (fun h => cname (List.mem_cons_of_mem c h)) (Nat.le_of_succ_le_succ len)
      rw [List.length_cons, strncmpEq, List.cons_prefix_cons, ← rest]
      simp [hc, eq_comm (a := p)]

theorem globMatch_iff {r : AliasRule} {name : Text} (ne : r.pattern ≠ [])
    (cname : '\x00' ∉ name) : globMatch r.pattern name = true ↔ r.Matches name := by
  unfold globMatch AliasRule.Matches
  rw [if_neg ne]
  by_cases star : r.pattern.getLast? = some '*'
  · rw [if_pos star]
    dsimp only
    -- a name that equals the pattern begins with what stands before the star
    have begins : r.pattern = name → r.pattern.dropLast <+: name := by
      rintro rfl
      exact List.dropLast_prefix _
    split_ifs with short
    · have long : ¬ r.pattern.dropLast <+: name := fun h => by have := h.length_le; omega
      simp only [star, long, and_false, or_false]
      exact iff_of_false (by simp) fun h => long (begins h)
    · rw [strncmpEq_iff cname (by omega)]
      exact ⟨fun h => .inr ⟨star, h⟩, fun h => h.elim begins And.right⟩
  · simp [star]

theorem pattern_mem_of_readWords {words : List Text} {r : AliasRule}
    (read : readWords words = some (.alias r)) : r.pattern ∈ words := by
  cases words with
  | nil => cases read
  | cons kw args =>
    dsimp only [readWords] at read
    split_ifs at read
    · unfold readPolicy at read
      split at read
      · split_ifs at read <;> cases read
      · cases read
    · unfold readAlias at read
      split at read <;> cases read
      exact .tail kw List.mem_cons_self
    · unfold readFunc at read
      split at read
      · obtain ⟨shape, -, func⟩ := Option.map_eq_some_iff.mp read
        cases func
      · cases read

theorem func_of_readWords {words : List Text} {name : Text} {s : SummaryEntry} {d : Directive}
    (read : readWords words = some d) (entry : d.entry? name = some s) :
    ∃ shape fields k, words = "FUNC".toList :: name :: shape :: fields ∧
      parseShape shape = some k ∧ parseFields fields { SummaryEntry.new with shape := k } = s := by
  cases words with
  | nil => cases read
  | cons kw args =>
    dsimp only [readWords] at read
    split_ifs at read with policy aliases func
    · unfold readPolicy at read
      split at read
      · split_ifs at read <;> cases read <;> cases entry
      · cases read
    · unfold readAlias at read
      split at read <;> cases read
      cases entry
    · unfold readFunc at read
      split at read
      next n shape fields =>
        obtain ⟨k, kind, rfl⟩ := Option.map_eq_some_iff.mp read
        dsimp only [Directive.entry?] at entry
        split_ifs at entry with same
        cases entry
        exact ⟨shape, fields, k, by rw [func, same], kind, rfl⟩
      next => cases read

/-- An alias that a line gives has a pattern. -/
theorem pattern_ne_nil {content : Text} {r : AliasRule}
    (h : r ∈ (directives content).filterMap Directive.alias?) : r.pattern ≠ [] := by
  obtain ⟨d, hd, hr⟩ := List.mem_filterMap.mp h
  obtain ⟨line, -, read⟩ := List.mem_filterMap.mp hd
  cases d with
  | policy => cases hr
  | func => cases hr
  | «alias» q =>
    cases hr
    exact ne_nil_of_mem_tokens (pattern_mem_of_readWords read)

theorem findAlias_eq {tb : SummaryTable} {name : Text} {rules : List AliasRule}
    (hit : ∀ r ∈ rules, globMatch r.pattern name = true ↔ r.Matches name) :
    findAlias tb name rules =
      rules.findSome? fun r => if r.Matches name then tb.funcs r.canonical else none := by
  induction rules with
  | nil => rfl
  | cons r rules ih =>
    have rest := ih fun q hq => hit q (.tail r hq)
    have first := hit r List.mem_cons_self
    rw [findAlias, List.findSome?_cons]
    grind

theorem loadSummaries_tables {content : Text} {tb : SummaryTable}
    (load : loadSummaries (some content) .new = (true, tb)) :
    tb.policy = (lastOf Directive.policy? (directives content)).getD .optimistic ∧
      (∀ name, tb.funcs name = funcOf (directives content) name) ∧
      tb.aliases = (directives content).filterMap Directive.alias? ∧
      tb.conservativeDefault = conservativeSummary := by
  have default := parseLines_conservativeDefault content .new
  obtain ⟨-, rfl⟩ := Prod.mk.inj load
  refine ⟨?_, fun name => ?_, ?_, ?_⟩
  · exact (congrArg SummaryTable.policy (parseLines_eq content .new)).trans (foldl_policy _ _)
  · have last := foldl_funcs (directives content) .new name
    rw [← parseLines_eq] at last
    exact last.trans (Option.or_none)
  · have all := foldl_aliases (directives content) .new
    rw [← parseLines_eq] at all
    exact all
  · rw [default]
    rfl

theorem default_of_policy {tb : SummaryTable} {ds : List Directive}
    (policy : tb.policy = (lastOf Directive.policy? ds).getD .optimistic)
    (default : tb.conservativeDefault = conservativeSummary) :
    (if tb.policy = .conservative then some tb.conservativeDefault else none) = defaultOf ds := by
  rw [policy, default, defaultOf]
  cases lastOf Directive.policy? ds with
  | none => rfl
  | some p => cases p <;> rfl

theorem find_eq_resolve {content name : Text} {tb : SummaryTable}
    (load : loadSummaries (some content) .new = (true, tb)) (cname : '\x00' ∉ name) :
    tb.find name = resolve (directives content) name := by
  obtain ⟨policy, funcs, aliases, default⟩ := loadSummaries_tables load
  have hit : ∀ r ∈ tb.aliases, globMatch r.pattern name = true ↔ r.Matches name := by
    intro r hr
    rw [aliases] at hr
    exact globMatch_iff (pattern_ne_nil hr) cname
  have aliased : findAlias tb name tb.aliases = aliasOf (directives content) name := by
    rw [findAlias_eq hit, aliases, aliasOf]
    simp only [funcs]
  simp only [SummaryTable.find, funcs, aliased, default_of_policy policy default, resolve]
  cases funcOf (directives content) name with
  | some s => rfl
  | none => cases aliasOf (directives content) name <;> rfl

/-! ## Rearranging the lines -/

/-- What a line is about. -/
inductive Directive.Kind where
  | policy | alias | func (name : Text)
  deriving DecidableEq

def Directive.kind : Directive → Kind
  | .policy _ => .policy
  | .alias _ => .alias
  | .func name _ => .func name

/-- For every kind the lines of that kind are the same and stand in the same order. -/
def Rearranged (ds ds' : List Directive) : Prop :=
  ∀ k, ds'.filter (·.kind = k) = ds.filter (·.kind = k)

namespace Rearranged

variable {ds ds' : List Directive}

theorem lastOf_eq {σ : Type*} {speaks : Directive → Option σ} (h : Rearranged ds ds')
    (k : Directive.Kind) (silent : ∀ d, d.kind ≠ k → speaks d = none) :
    lastOf speaks ds' = lastOf speaks ds := by
  have only : ∀ l, lastOf speaks (l.filter (Directive.kind · = k)) = lastOf speaks l :=
    fun l => lastOf_filter fun d hd => silent d (of_decide_eq_false hd)
  rw [← only ds', h k, only ds]

theorem funcOf_eq (h : Rearranged ds ds') (name : Text) : funcOf ds' name = funcOf ds name := by
  refine h.lastOf_eq (.func name) fun d hd => ?_
  cases d with
  | policy => rfl
  | «alias» => rfl
  | func n s => exact if_neg fun eq => hd (by rw [← eq, Directive.kind])

theorem policy_eq (h : Rearranged ds ds') :
    lastOf Directive.policy? ds' = lastOf Directive.policy? ds := by
  refine h.lastOf_eq .policy fun d hd => ?_
  cases d with
  | policy => exact absurd rfl hd
  | «alias» => rfl
  | func => rfl

theorem aliases_eq (h : Rearranged ds ds') :
    ds'.filterMap Directive.alias? = ds.filterMap Directive.alias? := by
  have only : ∀ l : List Directive,
      (l.filter (·.kind = .alias)).filterMap Directive.alias? = l.filterMap Directive.alias? := by
    intro l
    rw [List.filterMap_filter]
    refine congrArg (fun f => l.filterMap f) (funext fun d => ?_)
    cases d <;> rfl
  rw [← only ds', h .alias, only ds]

end Rearranged

theorem find_of_rearranged {content content' : Text} {tb tb' : SummaryTable}
    (load : loadSummaries (some content) .new = (true, tb))
    (load' : loadSummaries (some content') .new = (true, tb'))
    (h : Rearranged (directives content) (directives content')) (name : Text) :
    tb'.find name = tb.find name := by
  obtain ⟨policy, funcs, aliases, default⟩ := loadSummaries_tables load
  obtain ⟨policy', funcs', aliases', default'⟩ := loadSummaries_tables load'
  have same : tb' = tb := by
    cases tb
    cases tb'
    simp only [SummaryTable.mk.injEq]
    refine ⟨?_, funext fun n => ?_, ?_, ?_⟩
    · exact policy'.trans ((congrArg (Option.getD · _) h.policy_eq).trans policy.symm)
    · exact (funcs' n).trans ((h.funcOf_eq n).trans (funcs n).symm)
    · exact aliases'.trans (h.aliases_eq.trans aliases.symm)
    · exact default'.trans default.symm
  rw [same]

/-- Two neighbouring lines of different kinds may change places. -/
theorem rearranged_swap {content content' line line' : Text} {before after : List Text}
    {d d' : Directive} (lines : content.splitOn '\n' = before ++ line :: line' :: after)
    (lines' : content'.splitOn '\n' = before ++ line' :: line :: after)
    (read : readLine line = some d) (read' : readLine line' = some d') (ne : d.kind ≠ d'.kind) :
    Rearranged (directives content) (directives content') := by
  intro k
  rw [directives, directives, lines, lines']
  simp only [List.filterMap_append, List.filterMap_cons, read, read', List.filter_append]
  grind

/-- A routine gets the last summary of its name, else that of the first alias that matches it and
leads to a summary, else what the policy says; a routine's name is a C string. As long as the
lines of each kind keep their order, they may stand anywhere. -/
theorem loaded_resolves {content : Text} {tb : SummaryTable}
    (load : loadSummaries (some content) .new = (true, tb)) :
    (∀ name, '\x00' ∉ name → tb.find name = resolve (directives content) name) ∧
      ∀ content' tb', loadSummaries (some content') .new = (true, tb') →
        Rearranged (directives content) (directives content') →
          ∀ name, tb'.find name = tb.find name :=
  ⟨fun _ cname => find_eq_resolve load cname, fun _ _ load' h => find_of_rearranged load load' h⟩

/-- The first alias that matches `gets` leads nowhere. -/
def aliasConf : Text := "FUNC f SOURCE buf=1\nALIAS g* h\nALIAS gets f".toList

def aliasConfMoved : Text := "ALIAS g* h\nFUNC f SOURCE buf=1\nALIAS gets f".toList

theorem aliasConf_moved : Rearranged (directives aliasConf) (directives aliasConfMoved) := by
  have lines : aliasConf.splitOn '\n' =
      [] ++ "FUNC f SOURCE buf=1".toList :: "ALIAS g* h".toList :: ["ALIAS gets f".toList] := rfl
  exact rearranged_swap lines rfl rfl rfl (by simp [Directive.kind])

/-- `gets` gets the summary of `f`, also when the summary stands after an alias. -/
theorem loaded_resolves_gets :
    (loadSummaries (some aliasConf) .new).2.find "gets".toList =
        some { SummaryEntry.new with shape := .source, buf := 1 } ∧
      (loadSummaries (some aliasConfMoved) .new).2.find "gets".toList =
        some { SummaryEntry.new with shape := .source, buf := 1 } := by
  have load : loadSummaries (some aliasConf) .new = (true, _) := rfl
  obtain ⟨resolves, moved⟩ := loaded_resolves load
  have first := resolves "gets".toList (by decide)
  exact ⟨first, (moved aliasConfMoved _ rfl aliasConf_moved "gets".toList).trans first⟩

end LibdftDr
