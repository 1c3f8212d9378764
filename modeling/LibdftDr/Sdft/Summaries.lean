import LibdftDr.Sdft.Hook

/-!
# The summary table

`load` reads the configuration text line by line: a policy, summaries of functions, and aliases
that name the summary to use for a pattern of names. A line that is not understood is reported
and skipped. `find` looks a routine up by its name, then by the aliases in file order, and last
by the policy.
-/
namespace LibdftDr

/-- What to assume of a routine without a summary. -/
inductive SdftPolicy where
  | optimistic | conservative
  deriving DecidableEq

/-- A summary as it stands in the table. No handler reads `buf`. -/
structure SummaryEntry extends Summary where
  buf : ℤ

/-- `Summary()`. -/
def SummaryEntry.new : SummaryEntry where
  shape := .invalid
  dst := ⟨.none, 0⟩
  src := []
  len := ⟨.none, 0⟩
  args := []
  buf := -1

structure AliasRule where
  pattern : Text
  canonical : Text

structure SummaryTable where
  policy : SdftPolicy
  funcs : Text → Option SummaryEntry
  aliases : List AliasRule
  conservativeDefault : SummaryEntry

/-- The table of a process that has loaded nothing. -/
def SummaryTable.new : SummaryTable := ⟨.optimistic, fun _ => none, [], .new⟩

/-! ## Strings -/

def isBlank (c : Char) : Bool := c = ' ' || c = '\t'

def lstrip (s : Text) : Text := s.dropWhile isBlank

def rstrip (s : Text) : Text :=
  (s.reverse.dropWhile fun c => isBlank c || c = '\r' || c = '\n').reverse

def strip (s : Text) : Text := lstrip (rstrip s)

/-- The maximal runs without blanks. -/
def splitWs (s : Text) : List Text := (s.splitOnP isBlank).filter (· ≠ [])

/-- `isspace` in the C locale. -/
def isSpace (c : Char) : Bool :=
  c = ' ' || (decide (9 ≤ c.toNat) && decide (c.toNat ≤ 13))

/-- The number is clamped to a `long` and then cut to an `int`. -/
def atoi (s : Text) : ℤ :=
  let (negative, digits) :=
    match s.dropWhile isSpace with
    | '-' :: rest => (true, rest)
    | '+' :: rest => (false, rest)
    | rest => (false, rest)
  let n : ℕ := (digits.takeWhile Char.isDigit).foldl (fun n c => 10 * n + (c.toNat - '0'.toNat)) 0
  let v : ℤ := if negative then max (-0x8000000000000000) (-n) else min 0x7fffffffffffffff n
  (BitVec.ofInt 32 v).toInt

def parseCsvInts (csv : Text) : List ℤ := ((csv.splitOn ',').filter (· ≠ [])).map atoi

/-- The text before the first `=` and the text after it. -/
def splitKv (kv : Text) : Option (Text × Text) :=
  if '=' ∈ kv then some (kv.takeWhile (· ≠ '='), (kv.dropWhile (· ≠ '=')).tail) else none

def parseRef (val : Text) : Ref :=
  if val = "ret".toList then ⟨.ret, 0⟩
  else if val = "strlen".toList then ⟨.strlen, 0⟩
  else if val = "wcslen".toList then ⟨.wcslen, 0⟩
  else if val.head?.any fun c => c = '-' || c.isDigit then
    let v := atoi val
    if 0 ≤ v ∧ v ≤ 5 then ⟨.arg, v⟩ else ⟨.literal, v⟩
  else ⟨.none, 0⟩

/-- `strncmp(a, b, n) == 0`: nothing after a common null character is compared. -/
def strncmpEq : ℕ → Text → Text → Bool
  | 0, _, _ => true
  | n + 1, a, b =>
    let x := a.headD '\x00'
    let y := b.headD '\x00'
    x = y && (x = '\x00' || strncmpEq n a.tail b.tail)

def globMatch (pat name : Text) : Bool :=
  if pat = [] then false
  else if pat.getLast? = some '*' then
    let pre := pat.dropLast
    if name.length < pre.length then false else strncmpEq pre.length name pre
  else pat = name

/-! ## Directives -/

def parsePolicy (toks : List Text) (tb : SummaryTable) : SummaryTable :=
  match toks with
  | _ :: value :: _ =>
    if value = "optimistic".toList then { tb with policy := .optimistic }
    else if value = "conservative".toList then { tb with policy := .conservative }
    else tb
  | _ => tb

def parseAlias (toks : List Text) (tb : SummaryTable) : SummaryTable :=
  match toks with
  | _ :: pattern :: canonical :: _ => { tb with aliases := tb.aliases ++ [⟨pattern, canonical⟩] }
  | _ => tb

def parseShape (name : Text) : Option Shape :=
  if name = "SOURCE".toList then some .source
  else if name = "SOURCE_RETURN_PTR".toList then some .sourceRetPtr
  else if name = "PROP_PTR2PTR".toList then some .propPtr2ptr
  else if name = "PROP_PTR2VAL".toList then some .propPtr2val
  else if name = "PROP_SCALAR".toList then some .propScalar
  else if name = "CLOBBER_ONLY".toList then some .clobberOnly
  else none

/-- One `key=value` field; an unknown key is reported and skipped. -/
def setField (key val : Text) (s : SummaryEntry) : SummaryEntry :=
  if key = "buf".toList then { s with buf := atoi val }
  else if key = "len".toList then { s with len := parseRef val }
  else if key = "dst".toList then { s with dst := parseRef val }
  else if key = "src".toList then { s with src := parseCsvInts val }
  else if key = "args".toList then { s with args := parseCsvInts val }
  else s

/-- The fields up to a comment. A field with an `=` is taken for one also when it starts with
the comment sign. -/
def parseFields : List Text → SummaryEntry → SummaryEntry
  | [], s => s
  | tok :: toks, s =>
    match splitKv tok with
    | some (key, val) => parseFields toks (setField key val s)
    | none => if tok.head? = some '#' then s else parseFields toks s

def parseFunc (toks : List Text) (tb : SummaryTable) : SummaryTable :=
  match toks with
  | _ :: name :: shape :: fields =>
    match parseShape shape with
    | none => tb
    | some shape =>
      let s := parseFields fields { SummaryEntry.new with shape := shape }
      { tb with funcs := Function.update tb.funcs name (some s) }
  | _ => tb

def parseLine (raw : Text) (tb : SummaryTable) : SummaryTable :=
  let line := strip raw
  if line = [] ∨ line.head? = some '#' then tb
  else
    let toks := splitWs line
    match toks with
    | [] => tb
    | kw :: _ =>
      if kw = "POLICY".toList then parsePolicy toks tb
      else if kw = "ALIAS".toList then parseAlias toks tb
      else if kw = "FUNC".toList then parseFunc toks tb
      else tb

/-! ## Loading and looking up -/

/-- The lines of the file, the last one also when it is empty. -/
def parseLines (content : Text) (tb : SummaryTable) : SummaryTable :=
  (content.splitOn '\n').foldl (fun tb line => parseLine line tb) tb

/-- What the file is read into; `none` when it cannot be opened. The default is set up after the
lines: the union over the arguments 0 to 5. -/
def loadSummaries (file : Option Text) (tb : SummaryTable) : Bool × SummaryTable :=
  match file with
  | none => (false, tb)
  | some content =>
    let tb := parseLines content tb
    (true, { tb with
      conservativeDefault :=
        { tb.conservativeDefault with shape := .propPtr2val, src := [0, 1, 2, 3, 4, 5] } })

def findAlias (tb : SummaryTable) (name : Text) : List AliasRule → Option SummaryEntry
  | [] => none
  | r :: rules =>
    if globMatch r.pattern name then
      match tb.funcs r.canonical with
      | some s => some s
      | none => findAlias tb name rules
    else findAlias tb name rules

def SummaryTable.find (tb : SummaryTable) (name : Text) : Option SummaryEntry :=
  match tb.funcs name with
  | some s => some s
  | none =>
    match findAlias tb name tb.aliases with
    | some s => some s
    | none => if tb.policy = .conservative then some tb.conservativeDefault else none

end LibdftDr
