import Mathlib.Data.List.TakeWhile
import LibdftDr.Sdft.Directives

/-!
# Comments behind a directive

A comment may stand behind the last field of a line. Only the fields of a summary are read with
comments in mind, and there a word with an `=` counts as a field even when it begins with the
comment sign. So a comment can set fields, supply the missing name of an alias, or name a
function.
-/
namespace LibdftDr
open Library

/-! ## The words of a line with a comment -/

/-- The line with white space and a comment after its last field. -/
def withComment (line ws text : Text) : Text := rstrip line ++ ws ++ '#' :: text

theorem rstrip_append {a b : Text} (h : rstrip b ≠ []) : rstrip (a ++ b) = a ++ rstrip b := by
  unfold rstrip at h ⊢
  rw [List.reverse_append, List.dropWhile_append, if_neg, List.reverse_append, List.reverse_reverse]
  intro empty
  rw [List.isEmpty_iff.mp empty] at h
  exact h rfl

theorem rstrip_comment (text : Text) : rstrip ('#' :: text) = '#' :: rstrip text := by
  by_cases h : rstrip text = []
  · unfold rstrip at h ⊢
    rw [List.reverse_cons, List.dropWhile_append, List.reverse_eq_nil_iff.mp h]
    rfl
  · exact rstrip_append (a := ['#']) h

theorem lineWords_withComment {line ws text : Text} (ne : ws ≠ [])
    (blank : ∀ c ∈ ws, isBlank c = true) :
    lineWords (withComment line ws text) = lineWords line ++ lineWords ('#' :: text) := by
  have comment : rstrip ('#' :: text) ≠ [] := by
    rw [rstrip_comment]
    exact List.cons_ne_nil _ _
  rw [lineWords, withComment, rstrip_append comment]
  exact tokens_append ne blank _ _

/-- A comment has a first word, and it begins with the comment sign. -/
theorem lineWords_comment (text : Text) :
    ∃ w ws, lineWords ('#' :: text) = ('#' :: w) :: ws := by
  rw [lineWords, rstrip_comment]
  exact tokens_cons_of_not (p := isBlank) rfl (rstrip text)

/-! ## What the fields of a summary say -/

/-- A word at which the fields end. -/
def isStop (tok : Text) : Bool := decide ('=' ∉ tok) && decide (tok.head? = some '#')

/-- The words that are read as fields. -/
def fieldsRead (toks : List Text) : List Text := toks.takeWhile fun tok => !isStop tok

/-- The text that a field gives to a key. -/
def valueIn (key tok : Text) : Option Text :=
  (splitKv tok).bind fun kv => if kv.1 = key then some kv.2 else none

/-- The text that the last field for a key gives to it. -/
def valueOf (key : Text) (toks : List Text) : Option Text :=
  lastOf (valueIn key) (fieldsRead toks)

/-- What the fields make of a key. -/
def fieldVal {β : Type*} (key : Text) (parse : Text → β) (absent : β) (toks : List Text) : β :=
  ((valueOf key toks).map parse).getD absent

section FieldVal

variable {β : Type*} {key : Text} {parse : Text → β} {absent : β} {tok k v : Text}
  {toks words : List Text}

theorem splitKv_eq_none : splitKv tok = none ↔ '=' ∉ tok := by
  unfold splitKv
  split_ifs with h <;> simp [h]

theorem isStop_of_splitKv (h : splitKv tok = some (k, v)) : isStop tok = false := by
  have eq : '=' ∈ tok := by
    by_contra none
    rw [splitKv_eq_none.mpr none] at h
    cases h
  simp [isStop, eq]

theorem valueOf_cons (go : isStop tok = false) :
    valueOf key (tok :: toks) = (valueOf key toks).or (valueIn key tok) := by
  have read : fieldsRead (tok :: toks) = tok :: fieldsRead toks := by
    unfold fieldsRead
    exact List.takeWhile_cons_of_pos (by simp [go])
  rw [valueOf, read, lastOf_cons]
  rfl

theorem valueOf_stop (h : isStop tok = true) : valueOf key (tok :: toks) = none := by
  have read : fieldsRead (tok :: toks) = [] := by
    unfold fieldsRead
    exact List.takeWhile_cons_of_neg (by simp [h])
  rw [valueOf, read]
  rfl

theorem fieldVal_field (h : splitKv tok = some (k, v)) :
    fieldVal key parse absent (tok :: toks) =
      fieldVal key parse (if k = key then parse v else absent) toks := by
  have said : valueIn key tok = if k = key then some v else none := by rw [valueIn, h]; rfl
  rw [fieldVal, fieldVal, valueOf_cons (isStop_of_splitKv h), said]
  cases valueOf key toks with
  | some w => rfl
  | none => split_ifs <;> rfl

theorem fieldVal_stop (h : isStop tok = true) :
    fieldVal key parse absent (tok :: toks) = absent := by
  rw [fieldVal, valueOf_stop h]
  rfl

theorem fieldVal_other (h : splitKv tok = none) (go : isStop tok = false) :
    fieldVal key parse absent (tok :: toks) = fieldVal key parse absent toks := by
  have said : valueIn key tok = none := by rw [valueIn, h]; rfl
  rw [fieldVal, fieldVal, valueOf_cons go, said, Option.or_none]

/-- Once the fields have ended, nothing more is read. -/
theorem fieldVal_append_of_stop (h : ∃ tok ∈ toks, isStop tok = true) (words : List Text) :
    fieldVal key parse absent (toks ++ words) = fieldVal key parse absent toks := by
  obtain ⟨tok, mem, stop⟩ := h
  have read : fieldsRead (toks ++ words) = fieldsRead toks := by
    unfold fieldsRead
    rw [List.takeWhile_append, if_neg]
    intro all
    have kept := List.takeWhile_eq_self_iff.mp (List.takeWhile_prefix _ |>.eq_of_length all) tok mem
    simp [stop] at kept
  rw [fieldVal, valueOf, read]
  rfl

theorem fieldVal_append (go : ∀ tok ∈ toks, isStop tok = false) (words : List Text) :
    fieldVal key parse absent (toks ++ words) =
      fieldVal key parse (fieldVal key parse absent toks) words := by
  have all : fieldsRead toks = toks := List.takeWhile_eq_self_iff.mpr fun tok mem => by
    simp [go tok mem]
  have read : fieldsRead (toks ++ words) = toks ++ fieldsRead words :=
    List.takeWhile_append_of_pos fun tok mem => by simp [go tok mem]
  simp only [fieldVal, valueOf, read, all, lastOf_append]
  cases lastOf (valueIn key) (fieldsRead words) <;> rfl

end FieldVal

/-- Two lists of fields that give every key the same value. -/
def SameFields (toks toks' : List Text) : Prop :=
  fieldVal "buf".toList atoi (-1) toks = fieldVal "buf".toList atoi (-1) toks' ∧
  fieldVal "len".toList parseRef ⟨.none, 0⟩ toks =
    fieldVal "len".toList parseRef ⟨.none, 0⟩ toks' ∧
  fieldVal "dst".toList parseRef ⟨.none, 0⟩ toks =
    fieldVal "dst".toList parseRef ⟨.none, 0⟩ toks' ∧
  fieldVal "src".toList parseCsvInts [] toks = fieldVal "src".toList parseCsvInts [] toks' ∧
  fieldVal "args".toList parseCsvInts [] toks = fieldVal "args".toList parseCsvInts [] toks'

/-- Every field sets the one member of the summary that its key names. -/
theorem setField_eq (k v : Text) (s : SummaryEntry) : setField k v s =
    { s with
      buf := if k = "buf".toList then atoi v else s.buf
      len := if k = "len".toList then parseRef v else s.len
      dst := if k = "dst".toList then parseRef v else s.dst
      src := if k = "src".toList then parseCsvInts v else s.src
      args := if k = "args".toList then parseCsvInts v else s.args } := by
  unfold setField
  by_cases buf : k = "buf".toList
  · subst buf; rfl
  by_cases len : k = "len".toList
  · subst len; rfl
  by_cases dst : k = "dst".toList
  · subst dst; rfl
  by_cases src : k = "src".toList
  · subst src; rfl
  by_cases args : k = "args".toList
  · subst args; rfl
  simp only [if_neg buf, if_neg len, if_neg dst, if_neg src, if_neg args]

theorem parseFields_eq (toks : List Text) (s : SummaryEntry) : parseFields toks s =
    { s with
      buf := fieldVal "buf".toList atoi s.buf toks
      len := fieldVal "len".toList parseRef s.len toks
      dst := fieldVal "dst".toList parseRef s.dst toks
      src := fieldVal "src".toList parseCsvInts s.src toks
      args := fieldVal "args".toList parseCsvInts s.args toks } := by
  induction toks generalizing s with
  | nil => rfl
  | cons tok toks ih =>
    cases h : splitKv tok with
    | some kv =>
      obtain ⟨k, v⟩ := kv
      simp only [parseFields, h, ih, setField_eq, fieldVal_field h]
    | none =>
      have free := splitKv_eq_none.mp h
      by_cases comment : tok.head? = some '#'
      · have stop : isStop tok = true := by simp [isStop, free, comment]
        simp only [parseFields, h, if_pos comment, fieldVal_stop stop]
      · have go : isStop tok = false := by simp [isStop, comment]
        simp only [parseFields, h, if_neg comment, ih, fieldVal_other h go]

theorem parseFields_eq_iff {toks toks' : List Text} {k k' : Shape} :
    parseFields toks { SummaryEntry.new with shape := k } =
        parseFields toks' { SummaryEntry.new with shape := k' } ↔
      k = k' ∧ SameFields toks toks' := by
  simp only [parseFields_eq, SummaryEntry.mk.injEq, Summary.mk.injEq, SameFields,
    SummaryEntry.new]
  constructor
  · rintro ⟨⟨shape, dst, src, len, args⟩, buf⟩
    exact ⟨shape, buf, len, dst, src, args⟩
  · rintro ⟨shape, buf, len, dst, src, args⟩
    exact ⟨⟨shape, dst, src, len, args⟩, buf⟩

/-- The comment's words leave a key as the fields have it. -/
def SaysAgain {β : Type*} (key : Text) (parse : Text → β) (absent : β)
    (fields words : List Text) : Prop :=
  ∀ v, valueOf key words = some v → parse v = fieldVal key parse absent fields

/-- What the comment's words set, before a word that ends them, has that value already. -/
def Repeats (fields words : List Text) : Prop :=
  SaysAgain "buf".toList atoi (-1) fields words ∧
  SaysAgain "len".toList parseRef ⟨.none, 0⟩ fields words ∧
  SaysAgain "dst".toList parseRef ⟨.none, 0⟩ fields words ∧
  SaysAgain "src".toList parseCsvInts [] fields words ∧
  SaysAgain "args".toList parseCsvInts [] fields words

theorem saysAgain_iff {β : Type*} {key : Text} {parse : Text → β} {absent : β}
    {fields words : List Text} : SaysAgain key parse absent fields words ↔
      fieldVal key parse (fieldVal key parse absent fields) words =
        fieldVal key parse absent fields := by
  unfold SaysAgain
  generalize fieldVal key parse absent fields = x
  rw [fieldVal]
  cases valueOf key words with
  | none => simp
  | some v => simp

theorem sameFields_append_iff {fields words : List Text} :
    SameFields (fields ++ words) fields ↔
      (∃ tok ∈ fields, isStop tok = true) ∨ Repeats fields words := by
  by_cases stop : ∃ tok ∈ fields, isStop tok = true
  · simp only [SameFields, fieldVal_append_of_stop stop, stop, and_self, true_or]
  · have go : ∀ tok ∈ fields, isStop tok = false := by
      intro tok mem
      by_contra h
      exact stop ⟨tok, mem, by simpa using h⟩
    simp only [SameFields, fieldVal_append go, Repeats, saysAgain_iff, stop, false_or]

/-! ## When a comment is harmless -/

/-- One of the lines gives a summary to the function. -/
def Defines (lines : List Text) (name : Text) : Prop :=
  ∃ line ∈ lines, ∃ shape fields k,
    lineWords line = "FUNC".toList :: name :: shape :: fields ∧ parseShape shape = some k

/-- The last of the lines that gives a summary to the function gives it this shape and what these
fields say. -/
def DefinesAs (lines : List Text) (name : Text) (k : Shape) (fields : List Text) : Prop :=
  ∃ before line after, lines = before ++ line :: after ∧ ¬ Defines after name ∧
    ∃ shape fields', lineWords line = "FUNC".toList :: name :: shape :: fields' ∧
      parseShape shape = some k ∧ SameFields fields' fields

/-- What must hold of the words of a line and of its comment, and of the lines around it, for the
comment to be ignored. -/
structure CommentSafe (before after toks words : List Text) : Prop where
  ofAlias : toks.head? = some "ALIAS".toList → 3 ≤ toks.length ∨ toks.length + words.length < 3
  ofBare : toks = ["FUNC".toList] → ∀ name shape fields k, words = name :: shape :: fields →
    parseShape shape = some k → Defines after name ∨ DefinesAs before name k fields
  ofFunc : ∀ name shape fields k, toks = "FUNC".toList :: name :: shape :: fields →
    parseShape shape = some k →
      Defines after name ∨ (∃ tok ∈ fields, isStop tok = true) ∨ Repeats fields words

/-- The entry that a line gives to a function. -/
def lineEntry (name line : Text) : Option SummaryEntry :=
  (readLine line).bind (Directive.entry? name)

theorem lineEntry_eq_some {name line : Text} {s : SummaryEntry} : lineEntry name line = some s ↔
    ∃ shape fields k, lineWords line = "FUNC".toList :: name :: shape :: fields ∧
      parseShape shape = some k ∧ parseFields fields { SummaryEntry.new with shape := k } = s := by
  rw [lineEntry, readLine]
  generalize lineWords line = words
  constructor
  · intro h
    obtain ⟨d, read, entry⟩ := Option.bind_eq_some_iff.mp h
    obtain ⟨shape, fields, k, rfl, kind, rfl⟩ := func_of_readWords read entry
    exact ⟨shape, fields, k, rfl, kind, rfl⟩
  · rintro ⟨shape, fields, k, rfl, kind, rfl⟩
    rw [readWords_func, readFunc, kind]
    exact if_pos rfl

theorem funcOf_lines (lines : List Text) (name : Text) :
    funcOf (lines.filterMap readLine) name = lastOf (lineEntry name) lines :=
  lastOf_filterMap lines

theorem funcOf_eq_none_iff {lines : List Text} {name : Text} :
    funcOf (lines.filterMap readLine) name = none ↔ ¬ Defines lines name := by
  have some_iff : ∀ line, lineEntry name line ≠ none ↔ ∃ shape fields k,
      lineWords line = "FUNC".toList :: name :: shape :: fields ∧ parseShape shape = some k := by
    intro line
    rw [Option.ne_none_iff_exists']
    simp only [lineEntry_eq_some]
    constructor
    · rintro ⟨s, shape, fields, k, words, kind, -⟩
      exact ⟨shape, fields, k, words, kind⟩
    · rintro ⟨shape, fields, k, words, kind⟩
      exact ⟨_, shape, fields, k, words, kind, rfl⟩
  rw [funcOf_lines, lastOf_eq_none, Defines]
  simp only [← some_iff]
  push Not
  rfl

theorem funcOf_eq_some_iff {lines : List Text} {name : Text} {k : Shape} {fields : List Text} :
    funcOf (lines.filterMap readLine) name =
        some (parseFields fields { SummaryEntry.new with shape := k }) ↔
      DefinesAs lines name k fields := by
  rw [funcOf_lines, lastOf_eq_some]
  simp only [DefinesAs, ← funcOf_eq_none_iff, funcOf_lines, lastOf_eq_none, lineEntry_eq_some]
  constructor
  · rintro ⟨before, line, after, rfl, ⟨shape, fields', k', words, kind, same⟩, silent⟩
    obtain ⟨rfl, fieldsEq⟩ := parseFields_eq_iff.mp same
    exact ⟨before, line, after, rfl, silent, shape, fields', words, kind, fieldsEq⟩
  · rintro ⟨before, line, after, rfl, silent, shape, fields', words, kind, fieldsEq⟩
    exact ⟨before, line, after, rfl,
      ⟨shape, fields', k, words, kind, parseFields_eq_iff.mpr ⟨rfl, fieldsEq⟩⟩, silent⟩

/-! ## The tables -/

/-- Two tables that agree in everything a line can set, and in every lookup. -/
def SameTables (tb tb' : SummaryTable) : Prop :=
  tb'.policy = tb.policy ∧ tb'.funcs = tb.funcs ∧ tb'.aliases = tb.aliases ∧
    ∀ name, tb'.find name = tb.find name

/-- The directives that leave the same tables. -/
def SameReading (ds ds' : List Directive) : Prop :=
  (lastOf Directive.policy? ds').getD .optimistic = (lastOf Directive.policy? ds).getD .optimistic ∧
  (∀ name, funcOf ds' name = funcOf ds name) ∧
  ds'.filterMap Directive.alias? = ds.filterMap Directive.alias?

theorem sameTables_iff {content content' : Text} {tb tb' : SummaryTable}
    (load : loadSummaries (some content) .new = (true, tb))
    (load' : loadSummaries (some content') .new = (true, tb')) :
    SameTables tb tb' ↔ SameReading (directives content) (directives content') := by
  obtain ⟨policy, funcs, aliases, default⟩ := loadSummaries_tables load
  obtain ⟨policy', funcs', aliases', default'⟩ := loadSummaries_tables load'
  simp only [SameReading, ← policy, ← policy', ← funcs, ← funcs', ← aliases, ← aliases']
  constructor
  · rintro ⟨samePolicy, sameFuncs, sameAliases, -⟩
    exact ⟨samePolicy, congrFun sameFuncs, sameAliases⟩
  · rintro ⟨samePolicy, sameFuncs, sameAliases⟩
    have same : tb' = tb := by
      cases tb
      cases tb'
      exact SummaryTable.mk.injEq .. ▸
        ⟨samePolicy, funext sameFuncs, sameAliases, default'.trans default.symm⟩
    rw [same]
    exact ⟨rfl, rfl, rfl, fun _ => rfl⟩

theorem directives_split {content line : Text} {before after : List Text}
    (lines : content.splitOn '\n' = before ++ line :: after) :
    directives content = before.filterMap readLine ++
      ((readLine line).toList ++ after.filterMap readLine) := by
  rw [directives, lines, List.filterMap_append]
  cases h : readLine line with
  | none => rw [List.filterMap_cons_none h]; rfl
  | some d => rw [List.filterMap_cons_some h]; rfl

section Replace

variable {D A : List Directive} {d : Option Directive}

theorem lastOf_toList {σ : Type*} (speaks : Directive → Option σ) (d : Option Directive) :
    lastOf speaks (D ++ (d.toList ++ A)) =
      (lastOf speaks A).or ((d.bind speaks).or (lastOf speaks D)) := by
  rw [lastOf_append, lastOf_append]
  cases d with
  | none => simp
  | some d => simp [Option.or_assoc]

theorem not_sameReading_alias (r : AliasRule) :
    ¬ SameReading (D ++ ((none : Option Directive).toList ++ A))
      (D ++ ((some (.alias r) : Option Directive).toList ++ A)) := by
  rintro ⟨-, -, aliases⟩
  have count := congrArg List.length aliases
  simp [List.filterMap_append, Directive.alias?] at count

/-- A summary in the place of nothing, or of another summary of the same name. -/
theorem sameReading_func_iff {name : Text} {s : SummaryEntry}
    (old : ∀ e, d = some e → ∃ s, e = .func name s) :
    SameReading (D ++ (d.toList ++ A))
        (D ++ ((some (.func name s) : Option Directive).toList ++ A)) ↔
      funcOf A name ≠ none ∨
        (d.bind (Directive.entry? name)).or (funcOf D name) = some s := by
  have said : (some (Directive.func name s)).bind (Directive.entry? name) = some s := if_pos rfl
  constructor
  · rintro ⟨-, funcs, -⟩
    have same := funcs name
    simp only [funcOf, lastOf_toList, said, Option.some_or] at same
    cases later : lastOf (Directive.entry? name) A with
    | some x => exact .inl (by simp [funcOf, later])
    | none =>
      rw [later, Option.none_or, Option.none_or] at same
      exact .inr same.symm
  · intro h
    have policy : ∀ o : Option Directive, (∀ e, o = some e → ∃ s, e = .func name s) →
        o.bind Directive.policy? = none := by
      rintro (_ | e) func
      · rfl
      · obtain ⟨s, rfl⟩ := func e rfl
        rfl
    refine ⟨?_, fun n => ?_, ?_⟩
    · rw [lastOf_toList, lastOf_toList, policy d old,
        policy _ fun e he => ⟨s, (Option.some.inj he).symm⟩]
    · simp only [funcOf, lastOf_toList]
      by_cases same : name = n
      · subst same
        rw [said, Option.some_or]
        obtain later | eq := h
        · obtain ⟨x, hx⟩ := Option.ne_none_iff_exists'.mp later
          rw [funcOf] at hx
          rw [hx, Option.some_or, Option.some_or]
        · rw [← eq]
          rfl
      · have silent : ∀ s, Directive.entry? n (.func name s) = none := fun s => if_neg same
        cases d with
        | none => rw [Option.bind_some, silent, Option.bind_none]
        | some e =>
          obtain ⟨t, rfl⟩ := old e rfl
          rw [Option.bind_some, Option.bind_some, silent, silent]
    · rw [List.filterMap_append, List.filterMap_append, List.filterMap_append,
        List.filterMap_append]
      cases d with
      | none => rfl
      | some e =>
        obtain ⟨t, rfl⟩ := old e rfl
        rfl

end Replace

/-! ## Which comments are ignored -/

theorem comment_ne {w v : Text} (h : v.head? ≠ some '#') : '#' :: w ≠ v := by
  rintro rfl
  exact h rfl

theorem parseShape_comment (w : Text) : parseShape ('#' :: w) = none := by
  unfold parseShape
  split_ifs with h h h h h h
  all_goals first | rfl | exact absurd h (comment_ne (by decide))

/-- Only aliases and summaries read words of a comment. -/
theorem readWords_append_of_ne {kw w : Text} {args ws : List Text} (aliases : kw ≠ "ALIAS".toList)
    (func : kw ≠ "FUNC".toList) :
    readWords (kw :: args ++ ('#' :: w) :: ws) = readWords (kw :: args) := by
  rw [List.cons_append, readWords, readWords, if_neg aliases, if_neg func, if_neg aliases,
    if_neg func]
  refine if_congr Iff.rfl ?_ rfl
  cases args with
  | cons value args => rfl
  | nil =>
    dsimp only [List.nil_append, readPolicy]
    split_ifs with h h
    · exact absurd h (comment_ne (by decide))
    · exact absurd h (comment_ne (by decide))
    · rfl

theorem sameReading_refl (ds : List Directive) : SameReading ds ds := ⟨rfl, fun _ => rfl, rfl⟩

section Safe

variable {before after : List Text} {w : Text} {args ws : List Text}

/-- The directives of the lines around one of which this is read. -/
def around (before after : List Text) (d : Option Directive) : List Directive :=
  before.filterMap readLine ++ (d.toList ++ after.filterMap readLine)

theorem commentSafe_other {toks : List Text} {words : List Text}
    (aliases : toks.head? ≠ some "ALIAS".toList) (func : toks.head? ≠ some "FUNC".toList) :
    CommentSafe before after toks words where
  ofAlias h := absurd h aliases
  ofBare h := absurd (by rw [h]; rfl) func
  ofFunc _ _ _ _ h := absurd (by rw [h]; rfl) func

theorem commentSafe_alias_iff :
    CommentSafe before after ("ALIAS".toList :: args) (('#' :: w) :: ws) ↔
      SameReading (around before after (readAlias args))
        (around before after (readAlias (args ++ ('#' :: w) :: ws))) := by
  have safe : CommentSafe before after ("ALIAS".toList :: args) (('#' :: w) :: ws) ↔
      2 ≤ args.length ∨ args.length + ws.length < 1 := by
    constructor
    · intro h
      have len := h.ofAlias rfl
      simp only [List.length_cons] at len
      omega
    · intro len
      refine ⟨fun _ => ?_, fun h => ?_, fun name shape fields k h => ?_⟩
      · simp only [List.length_cons]
        omega
      · exact absurd (List.cons.inj h).1 (by decide)
      · exact absurd (List.cons.inj h).1 (by decide)
  rw [safe]
  rcases args with _ | ⟨pattern, _ | ⟨canonical, args⟩⟩
  · cases ws with
    | nil => exact iff_of_true (by simp) (sameReading_refl _)
    | cons v ws => exact iff_of_false (by simp) (not_sameReading_alias _)
  · exact iff_of_false (by simp) (not_sameReading_alias _)
  · exact iff_of_true (by simp) (sameReading_refl _)

theorem commentSafe_func {words : List Text} :
    CommentSafe before after ("FUNC".toList :: args) words ↔
      (args = [] → ∀ name shape fields k, words = name :: shape :: fields →
        parseShape shape = some k → Defines after name ∨ DefinesAs before name k fields) ∧
      ∀ name shape fields k, args = name :: shape :: fields → parseShape shape = some k →
        Defines after name ∨ (∃ tok ∈ fields, isStop tok = true) ∨ Repeats fields words := by
  have notAlias : ("FUNC".toList :: args).head? ≠ some "ALIAS".toList := by
    rw [List.head?_cons]
    decide
  constructor
  · exact fun h => ⟨fun bare => h.ofBare (congrArg _ bare),
      fun name shape fields k eq => h.ofFunc name shape fields k (congrArg _ eq)⟩
  · exact fun h => ⟨fun alias_ => absurd alias_ notAlias, fun bare => h.1 (List.cons.inj bare).2,
      fun name shape fields k eq => h.2 name shape fields k (List.cons.inj eq).2⟩

theorem readFunc_of_shape {name shape : Text} {k : Shape} (kind : parseShape shape = some k)
    (fields : List Text) : readFunc (name :: shape :: fields) =
      some (.func name (parseFields fields { SummaryEntry.new with shape := k })) := by
  rw [readFunc, kind, Option.map_some]

theorem readFunc_of_none {shape : Text} (kind : parseShape shape = none) (name : Text)
    (fields : List Text) : readFunc (name :: shape :: fields) = none := by
  rw [readFunc, kind, Option.map_none]

/-- A bare `FUNC`: the words of the comment are the name and the shape. -/
theorem commentSafe_bare_iff :
    CommentSafe before after ["FUNC".toList] (('#' :: w) :: ws) ↔
      SameReading (around before after (readFunc []))
        (around before after (readFunc (('#' :: w) :: ws))) := by
  rw [commentSafe_func]
  cases ws with
  | nil =>
    refine iff_of_true ⟨fun _ _ _ _ _ words => ?_, fun _ _ _ _ args => ?_⟩ (sameReading_refl _)
    · cases words
    · cases args
  | cons shape fields =>
    cases kind : parseShape shape with
    | none =>
      rw [readFunc_of_none kind]
      refine iff_of_true ⟨?_, fun _ _ _ _ args => ?_⟩ (sameReading_refl _)
      · rintro _ _ _ _ k ⟨⟩ other
        cases kind.symm.trans other
      · cases args
    | some k =>
      rw [readFunc_of_shape kind, around, around, sameReading_func_iff (by rintro e ⟨⟩)]
      change _ ↔ _ ∨ funcOf (before.filterMap readLine) _ = some _
      rw [Ne, funcOf_eq_none_iff, not_not, funcOf_eq_some_iff]
      constructor
      · exact fun h => h.1 rfl _ _ _ _ rfl kind
      · refine fun h => ⟨?_, fun _ _ _ _ args => ?_⟩
        · rintro _ _ _ _ k' ⟨⟩ other
          cases kind.symm.trans other
          exact h
        · cases args

/-- A summary with a name and a shape: the words of the comment come behind its fields. -/
theorem commentSafe_fields_iff {name shape : Text} {fields : List Text} :
    CommentSafe before after ("FUNC".toList :: name :: shape :: fields) (('#' :: w) :: ws) ↔
      SameReading (around before after (readFunc (name :: shape :: fields)))
        (around before after (readFunc (name :: shape :: (fields ++ ('#' :: w) :: ws)))) := by
  rw [commentSafe_func]
  cases kind : parseShape shape with
  | none =>
    rw [readFunc_of_none kind, readFunc_of_none kind]
    refine iff_of_true ⟨fun bare => ?_, ?_⟩ (sameReading_refl _)
    · cases bare
    · rintro _ _ _ k ⟨⟩ other
      cases kind.symm.trans other
  | some k =>
    have said : ∀ s, (some (Directive.func name s)).bind (Directive.entry? name) = some s :=
      fun s => if_pos rfl
    rw [readFunc_of_shape kind, readFunc_of_shape kind, around, around,
      sameReading_func_iff fun e he => ⟨_, (Option.some.inj he).symm⟩, said, Option.some_or,
      Option.some.injEq, Ne, funcOf_eq_none_iff, not_not, eq_comm (a := parseFields fields _),
      parseFields_eq_iff, and_iff_right rfl, sameFields_append_iff]
    constructor
    · exact fun h => h.2 _ _ _ _ rfl kind
    · refine fun h => ⟨fun bare => ?_, ?_⟩
      · cases bare
      · rintro _ _ _ k' ⟨⟩ other
        exact h

theorem commentSafe_iff (toks : List Text) :
    CommentSafe before after toks (('#' :: w) :: ws) ↔
      SameReading (around before after (readWords toks))
        (around before after (readWords (toks ++ ('#' :: w) :: ws))) := by
  cases toks with
  | nil =>
    rw [List.nil_append, readWords_comment ws rfl]
    exact iff_of_true (commentSafe_other (by simp) (by simp)) (sameReading_refl _)
  | cons kw args =>
    by_cases aliases : kw = "ALIAS".toList
    · subst aliases
      rw [List.cons_append, readWords_alias, readWords_alias]
      exact commentSafe_alias_iff
    by_cases func : kw = "FUNC".toList
    · subst func
      rw [List.cons_append, readWords_func, readWords_func]
      rcases args with _ | ⟨name, _ | ⟨shape, fields⟩⟩
      · exact commentSafe_bare_iff
      · -- the comment stands where the shape is missing
        rw [List.singleton_append, readFunc_of_none (parseShape_comment w), commentSafe_func]
        refine iff_of_true ⟨fun bare => ?_, fun _ _ _ _ args => ?_⟩ (sameReading_refl _)
        · cases bare
        · cases args
      · exact commentSafe_fields_iff
    · rw [readWords_append_of_ne aliases func]
      refine iff_of_true (commentSafe_other ?_ ?_) (sameReading_refl _)
      · exact fun h => aliases (Option.some.inj h)
      · exact fun h => func (Option.some.inj h)

end Safe

/-- A comment behind a line's last field leaves the tables and every lookup as they are if and
only if its words are safe there. -/
theorem comment_ignored_iff {content content' line ws text : Text} {before after : List Text}
    {tb tb' : SummaryTable} (lines : content.splitOn '\n' = before ++ line :: after)
    (lines' : content'.splitOn '\n' = before ++ withComment line ws text :: after)
    (ne : ws ≠ []) (blank : ∀ c ∈ ws, isBlank c = true)
    (load : loadSummaries (some content) .new = (true, tb))
    (load' : loadSummaries (some content') .new = (true, tb')) :
    SameTables tb tb' ↔
      CommentSafe before after (lineWords line) (lineWords ('#' :: text)) := by
  obtain ⟨w, words, comment⟩ := lineWords_comment text
  rw [sameTables_iff load load', directives_split lines, directives_split lines', readLine,
    readLine, lineWords_withComment ne blank, comment, commentSafe_iff]
  rfl

theorem oneBlank : ∀ c ∈ [' '], isBlank c = true := List.forall_mem_singleton.mpr rfl

def scalarConf : Text := "FUNC f PROP_SCALAR args=0".toList

/-- The line with a comment behind it. -/
def scalarConfWith (text : Text) : Text := withComment scalarConf [' '] text

def plainNote : Text := " was args=1".toList

def fieldNote : Text := "note=x args=1".toList

theorem loadSummaries_new (content : Text) :
    loadSummaries (some content) .new = (true, (loadSummaries (some content) .new).2) := rfl

theorem plainNote_repeats : Repeats ["args=0".toList] (lineWords ('#' :: plainNote)) := by
  have ends : ∀ key, valueOf key (lineWords ('#' :: plainNote)) = none := fun _ => rfl
  have again : ∀ {β : Type} (key : Text) (parse : Text → β) (absent : β),
      SaysAgain key parse absent ["args=0".toList] (lineWords ('#' :: plainNote)) := by
    intro β key parse absent v h
    cases (ends key).symm.trans h
  exact ⟨again _ _ _, again _ _ _, again _ _ _, again _ _ _, again _ _ _⟩

theorem fieldNote_not_repeats : ¬ Repeats ["args=0".toList] (lineWords ('#' :: fieldNote)) := by
  rintro ⟨-, -, -, -, args⟩
  exact absurd (args ['1'] rfl) (by decide)

/-- A comment that begins with a word without `=` is ignored, one that begins with `#note=x` is
not. -/
theorem comment_ignored_iff_note :
    SameTables (loadSummaries (some scalarConf) .new).2
        (loadSummaries (some (scalarConfWith plainNote)) .new).2 ∧
      ¬ SameTables (loadSummaries (some scalarConf) .new).2
        (loadSummaries (some (scalarConfWith fieldNote)) .new).2 := by
  have words : lineWords scalarConf =
      "FUNC".toList :: "f".toList :: "PROP_SCALAR".toList :: ["args=0".toList] := rfl
  have none : ¬ Defines [] "f".toList := by
    rintro ⟨line, mem, -⟩
    cases mem
  have lines : scalarConf.splitOn '\n' = [] ++ scalarConf :: [] := rfl
  constructor
  · have lines' : (scalarConfWith plainNote).splitOn '\n' =
        [] ++ withComment scalarConf [' '] plainNote :: [] := rfl
    refine (comment_ignored_iff lines lines' (by decide) oneBlank
      (loadSummaries_new _) (loadSummaries_new _)).mpr ?_
    rw [words, commentSafe_func]
    constructor
    · intro bare
      cases bare
    · rintro _ _ _ k ⟨⟩ -
      exact .inr (.inr plainNote_repeats)
  · intro same
    have lines' : (scalarConfWith fieldNote).splitOn '\n' =
        [] ++ withComment scalarConf [' '] fieldNote :: [] := rfl
    have safe := (comment_ignored_iff lines lines' (by decide) oneBlank
      (loadSummaries_new _) (loadSummaries_new _)).mp same
    rw [words, commentSafe_func] at safe
    obtain defined | ⟨tok, mem, stop⟩ | again := safe.2 _ _ _ _ rfl rfl
    · exact none defined
    · cases List.mem_singleton.mp mem
      exact absurd stop (by decide)
    · exact fieldNote_not_repeats again

/-- `#note=x args=1` behind `args=0` changes the arguments of the summary. -/
theorem comment_sets_field :
    ¬ ∀ (content content' line ws text : Text) (before after : List Text)
      (tb tb' : SummaryTable), content.splitOn '\n' = before ++ line :: after →
      content'.splitOn '\n' = before ++ withComment line ws text :: after →
      ws ≠ [] → (∀ c ∈ ws, isBlank c = true) →
      loadSummaries (some content) .new = (true, tb) →
      loadSummaries (some content') .new = (true, tb') → SameTables tb tb' := by
  intro claim
  obtain ⟨-, -, -, find⟩ := claim scalarConf (scalarConfWith fieldNote) scalarConf [' '] fieldNote
    [] [] _ _ rfl rfl (by decide) oneBlank (loadSummaries_new _) (loadSummaries_new _)
  have args := congrArg (Option.map fun e : SummaryEntry => e.args) (find "f".toList)
  exact absurd args (by decide)

end LibdftDr
