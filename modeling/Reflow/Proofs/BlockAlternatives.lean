import Reflow.Proofs.BlockTree
import Reflow.Proofs.BuildableRules

/-!
# The alternatives of a body

Whatever is read as an element of a body begins with a whole line, and that line alone tells which
alternative reads it (`opens_element`). So at no place do two alternatives match, and the order in
which the grammar tries them does not matter (`alternatives_exclusive`).
-/

namespace Reflow

open Text List Expr Option

/-! ## Choices whose order does not matter -/

variable {names : List String} {reader : Reader} {name : String}

/-- A choice reads what one of its readers reads, if never two of them read. -/
theorem Reader.choice_eq_some_iff {reader : String → Reader} {text : Text}
    (exclusive : ∀ first ∈ names, ∀ second ∈ names, (reader first text).isSome →
      (reader second text).isSome → first = second) {found : Part × Text} :
    Reader.choice (names.map reader) text = some found ↔
      ∃ name ∈ names, reader name text = some found := by
  induction names with
  | nil => simp [Reader.choice]
  | cons first rest ih =>
    have later := ih fun one member other member' =>
      exclusive one (mem_cons_of_mem _ member) other (mem_cons_of_mem _ member')
    rw [map_cons, Reader.choice]
    cases read : reader first text with
    | none => simp [later, read]
    | some own =>
      constructor
      · intro same
        exact ⟨first, mem_cons_self, read.trans same⟩
      · rintro ⟨name, member, other⟩
        have same := exclusive first mem_cons_self name member (by rw [read]; rfl)
          (by rw [other]; rfl)
        rw [← same, read] at other
        exact other

theorem Reader.choice_perm {order : List String} {reader : String → Reader}
    (exclusive : ∀ text, ∀ first ∈ names, ∀ second ∈ names, (reader first text).isSome →
      (reader second text).isSome → first = second) (permuted : order.Perm names) :
    Reader.choice (order.map reader) = Reader.choice (names.map reader) := by
  funext text
  apply ext
  intro found
  have alike : ∀ first ∈ order, ∀ second ∈ order, (reader first text).isSome →
      (reader second text).isSome → first = second := fun first member second member' =>
    exclusive text first (permuted.mem_iff.mp member) second (permuted.mem_iff.mp member')
  rw [choice_eq_some_iff alike, choice_eq_some_iff (exclusive text)]
  simp only [permuted.mem_iff]

/-! ## Alternatives of a built grammar -/

/-- An atom matches at a place, in some state that the parser can be in. -/
def Parser.Matches (parser : Parser) (atom : Nat) (cursor : Cursor) : Prop :=
  ∃ fuel state node stop after, parser.Reachable state ∧
    parser.tryAtom fuel atom cursor state = (.matched node stop, after)

/-- Where an atom matches that is visited as a reader reads, the reader reads. -/
theorem Parser.Matches.isSome_read {parser : Parser} {atom : Nat} {cursor : Cursor}
    (matchesHere : parser.Matches atom cursor) (inside : cursor.In parser.input)
    {limits : Limits} {fuel depth : Nat} {frame : Frame}
    (follows : Follows (Plain.visit parser.grammar limits fuel depth frame atom) reader) :
    (reader cursor.rest).isSome := by
  obtain ⟨more, state, node, stop, after, reachable, visited⟩ := matchesHere
  rw [tryAtom_eq] at visited
  have shown := (faithful_visit parser (Nat.le_refl more) 0 state.frame {} atom inside
    reachable.sound).shows (by rw [visited]; rfl)
  -- The parser shows what the plain visit gives with fuel enough, and that is settled already here.
  have settled : (Plain.visit parser.grammar limits fuel depth frame atom cursor).1.isSettled =
      true := by
    rw [follows cursor]
    exact Outcome.isSettled_ofReading _ _
  rw [visited, parser.grammar.visit_approx_eval limits fuel depth frame atom cursor settled,
    follows cursor] at shown
  cases read : reader cursor.rest with
  | some found => rfl
  | none =>
    rw [read] at shown
    cases shown

namespace Grammar

/-- The alternatives of a root that repeats a choice between a first and a last part. -/
def alternatives (grammar : Grammar) : List Nat :=
  match grammar.atoms[grammar.root]? with
  | some (.sequence [_, body, _]) =>
    match grammar.atoms[body]? with
    | some (.repetition inner _ _) =>
      match grammar.atoms[inner]? with
      | some (.choice options) => options
      | _ => []
    | _ => []
  | _ => []

variable {grammar : Grammar}

theorem alternatives_eq {target : String → Nat} {start : Nat} {first last : Expr}
    {options : List Expr} (placed : Placed grammar.atoms.toList start
      ((sequence [first, .many (.choice options), last]).atoms target start))
    (rooted : grammar.root =
      start + (sequence [first, .many (.choice options), last]).size - 1) :
    grammar.alternatives = tops (start + first.size) options ∧
      Placed grammar.atoms.toList (start + first.size)
        (allAtoms target (start + first.size) options) := by
  have root := placed.ownAll
  have behind := placed.left.right
  rw [length_atoms] at behind
  have body := behind.left.own
  have inner := behind.left.left.ownAll
  refine ⟨?_, behind.left.left.left⟩
  have found : grammar.atoms[grammar.root]? = some (.sequence [start + first.size - 1,
      start + first.size + (many (.choice options)).size - 1,
      start + first.size + (many (.choice options)).size + last.size - 1]) := by
    rw [rooted]
    exact root
  unfold alternatives
  rw [found]
  dsimp only
  rw [show grammar.atoms[start + first.size + (many (.choice options)).size - 1]? = _
    from body]
  dsimp only
  rw [show grammar.atoms[start + first.size + (choice options).size - 1]? = _ from inner]

def CapturesRule (grammar : Grammar) (atom : Nat) (name : String) : Prop :=
  ∃ inner body, grammar.atoms[atom]? = some (.capture name inner) ∧
    grammar.atoms[inner]? = some (.rule body) ∧ grammar.ruleAtom? name = some body

/-- Building finds the atom of a rule that stands for a body. -/
theorem ruleAtom?_of_build {rules : Rules} (built : build rules = .ok grammar)
    {body : Expr} (defined : bodyOf? rules name = some body) :
    grammar.ruleAtom? name = some (targetOf rules name) := by
  obtain ⟨atom, found⟩ := isSome_iff_exists.mp (known_of_defined defined)
  rw [ruleAtom?, (defined_of_build built).1, targetOf, found]
  rfl

/-- The atoms of captured rules capture them. -/
theorem capturesRule_tops {target : String → Nat} {start : Nat}
    (known : ∀ name ∈ names, grammar.ruleAtom? name = some (target name))
    (placed : Placed grammar.atoms.toList start
      (allAtoms target start (names.map Document.Block.captured))) :
    Forall₂ grammar.CapturesRule
      (tops start (names.map Document.Block.captured)) names := by
  induction names generalizing start with
  | nil => exact .nil
  | cons name names ih =>
    have own := placed.left.right.getElem?
    have inner := placed.left.left.getElem?
    refine .cons ⟨start, target name, own, inner, known name mem_cons_self⟩ ?_
    exact ih (forall_mem_cons.mp known).2 placed.right

end Grammar

namespace Document.Block

open Layout Reflow.Expr

/-! ## The line that opens an element -/

/-- The alternative that reads a construct with a marker. -/
def readingLabel (kind : Construct) : String :=
  if kind.isParameter then "parameters" else kind.label

def Token.label : Token → String
  | separator _ => "separator"
  | header kind _ => readingLabel kind
  | code _ _ _ => "code"
  | row _ => "table"
  | bullet _ => "list_items"
  | link _ => "reference_link"
  | text _ => "details"

def opened? (line : Text) : Option String :=
  match fence? line with
  | some _ => some "code"
  | none => (line? line).map Token.label

theorem opened?_of_line? {line : Text} {token : Token} (found : line? line = some token) :
    opened? line = some token.label := by
  cases fence : fence? line with
  | some header =>
    rw [line?_of_fence? fence] at found
    cases found
  | none => rw [opened?, fence, found]; rfl

/-- All that a reader reads begins with a line that opens an alternative. -/
def Opens (label : String) (reader : Reader) : Prop :=
  ∀ text, (reader text).isSome →
    ∃ line rest, text = line ++ '\n' :: rest ∧ '\n' ∉ line ∧ opened? line = some label

namespace Opens

variable {label : String}

theorem of_takesLine {γ : Type} {look : Part → List γ} {value? : Text → Option (List γ)}
    (takes : TakesLine reader look value?)
    (known : ∀ line, (value? line).isSome → opened? line = some label) :
    Opens label reader := by
  intro text reads
  obtain ⟨lines, tail, rfl, unbroken, last⟩ := exists_unlines text
  cases lines with
  | nil =>
    rw [unlines_nil, nil_append, takes.stop last] at reads
    cases reads
  | cons line lines =>
    have clean := unbroken line mem_cons_self
    have whole : unlines (line :: lines) ++ tail = line ++ '\n' :: (unlines lines ++ tail) := by
      rw [unlines_cons, append_assoc, cons_append]
    have taken := congrArg isSome (takes.line line (unlines lines ++ tail) clean)
    rw [← whole, isSome_map, reads, isSome_map] at taken
    exact ⟨line, _, whole, clean, known line taken.symm⟩

theorem of_token {γ : Type} {look : Part → List γ} {value? : Token → Option (List γ)}
    (takes : TakesLine reader look fun line => (line? line).bind value?)
    (known : ∀ token, (value? token).isSome → token.label = label) : Opens label reader := by
  refine of_takesLine takes fun line taken => ?_
  obtain ⟨values, found⟩ := isSome_iff_exists.mp taken
  obtain ⟨token, isToken, value⟩ := bind_eq_some_iff.mp found
  rw [opened?_of_line? isToken, known token (by rw [value]; rfl)]

theorem map (opens : Opens label reader) (change : Part → Part) :
    Opens label (reader.map change) := by
  intro text reads
  rw [Reader.map, isSome_map] at reads
  exact opens text reads

theorem sequence {first : Reader} (opens : Opens label first) (rest : List Reader) :
    Opens label (.sequence (first :: rest)) := by
  intro text reads
  apply opens text
  cases found : first text with
  | some read => rfl
  | none => simp [Reader.sequence, Reader.readAll, found] at reads

theorem choice {readers : List Reader} (each : ∀ reader ∈ readers, Opens label reader) :
    Opens label (.choice readers) := by
  intro text reads
  induction readers with
  | nil => cases reads
  | cons reader readers ih =>
    rw [Reader.choice] at reads
    cases found : reader text with
    | some read => exact each reader mem_cons_self text (by rw [found]; rfl)
    | none =>
      rw [found] at reads
      exact ih (forall_mem_cons.mp each).2 reads

/-- What is read at least once is read once at the front. -/
theorem many1 (opens : Opens label reader) : Opens label (reader.repetition 1 none) := by
  intro text reads
  apply opens text
  cases found : reader text with
  | some read => rfl
  | none => simp [Reader.repetition, Reader.rounds, found, belowMost] at reads

end Opens

section Elements

variable (levels : Nat)

theorem opens_separator : Opens "separator" (readRule rules (levels + 3) "separator") := by
  have defined : bodyOf? rules "separator" = some (many1 (reference "separator_line")) := rfl
  have line : TakesLine (readRule rules (levels + 2) "separator_line") Part.chars
      (fun line => (line? line).bind (separatorValue? id)) := by
    refine takes_separatorLine (fun part => ?_) levels
    rfl
  rw [readRule_of_defined defined]
  refine Opens.many1 (Opens.of_token line fun token taken => ?_)
  cases token with
  | separator => rfl
  | _ => cases taken

theorem opens_details : Opens "details" (readRule rules (levels + 3) "details") := by
  have defined : bodyOf? rules "details" = some (many1 (reference "command_line")) := rfl
  have line : TakesLine (readRule rules (levels + 2) "command_line") (Part.view pickLine)
      (fun line => (line? line).bind (textValue? id)) := takes_commandLine view_line levels
  rw [readRule_of_defined defined]
  refine Opens.many1 (Opens.of_token line fun token taken => ?_)
  cases token with
  | text => rfl
  | _ => cases taken

theorem opens_table : Opens "table" (readRule rules (levels + 2) "table") := by
  have defined : bodyOf? rules "table" = some (many1 tableRow) := rfl
  rw [readRule_of_defined defined]
  refine Opens.many1 (Opens.of_token (takes_row levels) fun token taken => ?_)
  cases token with
  | row => rfl
  | _ => cases taken

theorem opens_referenceLink :
    Opens "reference_link" (readRule rules (levels + 2) "reference_link") := by
  have defined : bodyOf? rules "reference_link" = some linkLine := rfl
  rw [readRule_of_defined defined]
  refine Opens.of_token (takes_link levels) fun token taken => ?_
  cases token with
  | link => rfl
  | _ => cases taken

/-- The opening line of fenced code is no token by itself. -/
theorem opens_code : Opens "code" (readRule rules (levels + 3) "code") := by
  rw [readRule_code]
  refine Opens.sequence (Opens.of_takesLine (takes_fence (levels + 1)) fun line taken => ?_) _
  rw [isSome_map] at taken
  obtain ⟨header, found⟩ := isSome_iff_exists.mp taken
  rw [opened?, found]

theorem opens_bulletItem {pattern : String} {left? : Text → Option Text}
    {test : ListItem → Bool} (defined : bodyOf? rules name =
      some (sequence [listStart pattern, many (reference "command_line")]))
    (items : ReadsItems (readRule rules (levels + 2)) pattern left? test) :
    Opens "list_items" (readRule rules (levels + 3) name) := by
  rw [readRule_of_defined defined]
  refine Opens.sequence (Opens.of_token (takes_listStart items) fun token taken => ?_) _
  cases token with
  | bullet => rfl
  | _ => cases taken

theorem opens_listItems : Opens "list_items" (readRule rules (levels + 4) "list_items") := by
  have defined : bodyOf? rules "list_items" =
    some (many1 (choice [captured "breaking_list_item", captured "list_item"])) := rfl
  rw [readRule_of_defined defined]
  apply Opens.many1
  refine Opens.choice (forall_mem_cons.mpr ⟨?_, forall_mem_singleton.mpr ?_⟩)
  · exact (opens_bulletItem levels rfl (readsItems_breaking _)).map _
  · exact (opens_bulletItem levels rfl (readsItems_plain _)).map _

section Markers

variable {levels} {kind : Construct} {marker : Expr}

theorem label_of_headerLine? {token : Token} (taken : (headerLine? kind token).isSome) :
    token.label = readingLabel kind := by
  cases token with
  | header other line =>
    rw [headerLine?] at taken
    split at taken
    · next same => rw [Token.label, same]
    · cases taken
  | _ => cases taken

variable (kind) (reads : ReadsMarker (readRule rules (levels + 1)) marker kind)
  (noFence : kind ≠ .code)

include reads noFence

theorem opens_header :
    Opens (readingLabel kind) ((headerLine marker (argumentOf kind)).read
      (readRule rules (levels + 1))) :=
  Opens.of_token (takes_header levels reads noFence) fun _ => label_of_headerLine?

theorem opens_reference
    (defined : bodyOf? rules name = some (headerLine marker (argumentOf kind))) :
    Opens (readingLabel kind) (readRule rules (levels + 2) name) := by
  rw [readRule_of_defined defined]
  exact opens_header kind reads noFence

theorem opens_tagged (defined : bodyOf? rules name = some (tagged marker (argumentOf kind))) :
    Opens (readingLabel kind) (readRule rules (levels + 2) name) := by
  rw [readRule_of_defined defined]
  exact Opens.sequence (opens_header kind reads noFence) _

end Markers

theorem opens_parameters : Opens "parameters" (readRule rules (levels + 4) "parameters") := by
  have template : "@tparam".toList = '@' :: "tparam".toList := rfl
  have plain : "@param".toList = '@' :: "param".toList := rfl
  have either : bodyOf? rules "parameter" =
    some (choice [captured "tparam", captured "param"]) := rfl
  have defined : bodyOf? rules "parameters" =
    some (sequence [many1 (reference "parameter"),
      many (sequence [captured "separator", many1 (reference "parameter")])]) := rfl
  have parameter : Opens "parameters" (readRule rules (levels + 3) "parameter") := by
    rw [readRule_of_defined either]
    refine Opens.choice (forall_mem_cons.mpr ⟨?_, forall_mem_singleton.mpr ?_⟩)
    · have reads : ReadsMarker (readRule rules (levels + 1)) (command "@tparam") .tparam :=
        readsMarker_only _ template (by decide) (by decide)
      exact (opens_tagged .tparam reads (by decide) rfl).map _
    · have reads : ReadsMarker (readRule rules (levels + 1)) (command "@param") .param :=
        readsMarker_only _ plain (by decide) (by decide)
      exact (opens_tagged .param reads (by decide) rfl).map _
  rw [readRule_of_defined defined]
  exact Opens.sequence parameter.many1 _

/-- What each alternative reads begins with a line that opens it. -/
theorem opens_element : ∀ name ∈ elementLabels, Opens name (readRule rules (levels + 5) name) := by
  simp only [elementLabels, forall_mem_cons, not_mem_nil, false_implies, implies_true, and_true]
  refine ⟨opens_separator _, ?_, opens_parameters _, ?_, opens_code _, ?_, ?_, ?_, ?_, ?_, ?_,
    opens_table _, opens_listItems _, opens_referenceLink _, opens_details _⟩
  · exact opens_tagged .brief (reads_marker (by decide)) (by decide) rfl
  · exact opens_tagged .returns (readsMarker_returns _) (by decide) rfl
  · exact opens_tagged .note (reads_marker (by decide)) (by decide) rfl
  · exact opens_tagged .warning (reads_marker (by decide)) (by decide) rfl
  · exact opens_tagged .throws (reads_marker (by decide)) (by decide) rfl
  · exact opens_reference .see (reads_marker (by decide)) (by decide) rfl
  · exact opens_reference .relatedAlso (reads_marker (by decide)) (by decide) rfl
  · exact opens_reference .related (reads_marker (by decide)) (by decide) rfl

end Elements

/-- No two alternatives read at one place: both begin with the same line there. -/
theorem element_exclusive (levels : Nat) {text : Text} {first second : String}
    (member : first ∈ elementLabels) (member' : second ∈ elementLabels)
    (reads : (readRule rules (levels + 5) first text).isSome)
    (reads' : (readRule rules (levels + 5) second text).isSome) : first = second := by
  obtain ⟨line, rest, whole, clean, opened⟩ := opens_element levels first member text reads
  obtain ⟨line', rest', whole', clean', opened'⟩ := opens_element levels second member' text reads'
  have front : line = line' := by
    rw [← takeWhile_rest clean (atEnd_newline rest),
      ← takeWhile_rest clean' (atEnd_newline rest'), ← whole, ← whole']
  rw [front, opened'] at opened
  exact (some.inj opened).symm

/-! ## Any order of the alternatives -/

/-- What the grammar reads as a comment, with the alternatives of a body in a given order. -/
def commentWith (order : List String) : Expr :=
  sequence [captured "start", many (choice (order.map captured)), captured "end"]

/-- The rules of the grammar, with the alternatives of a body in a given order. -/
def rulesWith (order : List String) : Rules :=
  ("block_comment", commentWith order) :: rules.tail

theorem rulesWith_elementLabels : rulesWith elementLabels = rules := rfl

section Captured

variable (names : List String)

theorem allReferences_captured : allReferences (names.map captured) = names := by
  induction names with
  | nil => rfl
  | cons name names ih => rw [map_cons, allReferences, ih]; rfl

theorem allBounded_captured : allBounded (names.map captured) := by
  induction names with
  | nil => rfl
  | cons name names ih => rw [map_cons, allBounded, ih]; rfl

theorem allPatterns_captured : allPatterns (names.map captured) = [] := by
  induction names with
  | nil => rfl
  | cons name names ih => rw [map_cons, allPatterns, ih]; rfl

end Captured

theorem references_commentWith (order : List String) :
    (commentWith order).references = "start" :: (order ++ ["end"]) := by
  have inner : (many (choice (order.map captured))).references = order :=
    allReferences_captured order
  rw [commentWith, references, allReferences, allReferences, inner]
  rfl

section Permuted

variable {order : List String} (permuted : order.Perm elementLabels)

/-- The rules behind the root read the same, whatever the order is. -/
theorem readRule_rulesWith {levels : Nat}
    (closed : (reference name).closedWithin rules.tail levels) :
    readRule (rulesWith order) levels name = readRule rules levels name := by
  rw [← rulesWith_elementLabels, rulesWith, rulesWith, readRule_cons closed, readRule_cons closed]

include permuted

/-- The root refers to rules behind it. -/
theorem closed_of_mem (member : name ∈ (commentWith order).references) :
    (reference name).closedWithin rules.tail 5 := by
  have closed : ∀ name ∈ "start" :: (elementLabels ++ ["end"]),
    (reference name).closedWithin rules.tail 5 := by decide
  apply closed
  rw [references_commentWith] at member
  simpa only [mem_cons, mem_append, permuted.mem_iff] using member

theorem closed_alternative (member : name ∈ order) :
    (reference name).closedWithin rules.tail 5 := by
  apply closed_of_mem permuted
  rw [references_commentWith]
  exact mem_cons_of_mem _ (mem_append_left _ member)

theorem closed_root : (reference "block_comment").closedWithin (rulesWith order) 6 := by
  have defined : bodyOf? (rulesWith order) "block_comment" = some (commentWith order) := rfl
  have body : (commentWith order).closedWithin (rulesWith order) 5 :=
    closedWithin_of_forall fun name member => closedWithin_cons (closed_of_mem permuted member)
  rw [closedWithin, references, all_cons, defined]
  simpa using body

theorem exists_build_rulesWith : ∃ grammar, Grammar.build (rulesWith order) = .ok grammar := by
  refine Grammar.exists_build (fun name member => ?_) ?_
  · have behind : ∀ name ∈ allReferences (rules.tail.map (·.2)),
      (bodyOf? rules.tail name).isSome := by decide
    have known : ∃ body, bodyOf? rules.tail name = some body := by
      rw [map_cons, allReferences, mem_append] at member
      rcases member with root | later
      · obtain ⟨body, defined, _⟩ := closedWithin_reference (closed_of_mem permuted root)
        exact ⟨body, defined⟩
      · exact isSome_iff_exists.mp (behind name later)
    obtain ⟨body, defined⟩ := known
    rw [bodyOf?_cons_of_defined defined]
    rfl
  · have behind : allBounded (rules.tail.map (·.2)) := by decide
    have root : (commentWith order).isBounded := by
      simp [commentWith, isBounded, allBounded, many, captured, allBounded_captured]
    rw [map_cons, allBounded, root, behind]
    rfl

omit permuted in
theorem compiles_rulesWith : PatternsCompile (rulesWith order) := by
  intro rule member pattern used
  rcases mem_cons.mp member with rfl | later
  · have nothing : (commentWith order).patterns = [] := by
      simp [commentWith, Expr.patterns, allPatterns, many, captured, allPatterns_captured]
    rw [nothing] at used
    cases used
  · exact compiles rule (mem_of_mem_tail later) pattern used

/-- A comment is read the same, whatever the order is. -/
theorem readRule_permuted :
    readRule (rulesWith order) 6 "block_comment" = readRule rules 6 "block_comment" := by
  have defined : ∀ order, bodyOf? (rulesWith order) "block_comment" = some (commentWith order) :=
    fun _ => rfl
  have exclusive : ∀ text, ∀ first ∈ elementLabels, ∀ second ∈ elementLabels,
      (((readRule rules 5 first).map (.field first)) text).isSome →
        (((readRule rules 5 second).map (.field second)) text).isSome → first = second := by
    intro text first member second member' reads reads'
    rw [Reader.map, isSome_map] at reads reads'
    exact element_exclusive 0 member member' reads reads'
  have same : (choice (order.map captured)).read (readRule rules 5) =
      (choice (elementLabels.map captured)).read (readRule rules 5) := by
    rw [read_choice, read_choice, readEach_captured, readEach_captured]
    exact Reader.choice_perm exclusive permuted
  -- Both roots are read over the same rules, and differ in their choice only.
  rw [readRule_of_defined (defined order),
    (commentWith order).read_congr fun name member =>
      readRule_rulesWith (closed_of_mem permuted member)]
  rw [← rulesWith_elementLabels, readRule_of_defined (defined elementLabels),
    rulesWith_elementLabels]
  simp only [commentWith, read_sequence, readEach_cons, readEach_nil, many, read_repetition, same]

section Built

variable {grammar : Grammar} (built : Grammar.build (rulesWith order) = .ok grammar)

include built

omit permuted in
/-- The alternatives of a built grammar stand in its table in their order. -/
theorem exists_placed : ∃ start,
    grammar.alternatives = tops start (order.map captured) ∧
      Placed grammar.atoms.toList start
        (allAtoms (Grammar.targetOf (rulesWith order)) start (order.map captured)) := by
  have defined : bodyOf? (rulesWith order) "block_comment" = some (commentWith order) := rfl
  obtain ⟨start, placed, top⟩ := Grammar.placed_of_build built defined
  have rooted : Grammar.targetOf (rulesWith order) "block_comment" = grammar.root :=
    some.inj (Grammar.build_eq_ok built).2
  exact ⟨_, Grammar.alternatives_eq placed (rooted.symm.trans top)⟩

/-- Every alternative captures the rule of its name. -/
theorem capturesRule_alternatives : Forall₂ grammar.CapturesRule grammar.alternatives order := by
  obtain ⟨start, same, placed⟩ := exists_placed built
  rw [same]
  refine Grammar.capturesRule_tops (fun name member => ?_) placed
  obtain ⟨body, defined, _⟩ := closedWithin_reference (closed_alternative permuted member)
  exact Grammar.ruleAtom?_of_build built (bodyOf?_cons_of_defined defined)

/-- Visiting an alternative reads what the rule of its name reads. -/
theorem follows_alternatives : ∃ fuel, Forall₂ (fun option name =>
    Follows (Plain.visit grammar .unlimited fuel 0 {} option)
      ((readRule rules 5 name).map (.field name))) grammar.alternatives order := by
  obtain ⟨start, same, placed⟩ := exists_placed built
  have closed : ∀ name ∈ allReferences (order.map captured),
      (reference name).closedWithin rules.tail 5 := by
    intro name member
    rw [allReferences_captured] at member
    exact closed_alternative permuted member
  have resolves : Grammar.Resolves grammar .unlimited (Grammar.targetOf (rulesWith order)) Follows
      (readRule (rulesWith order) 5) (5 * grammar.atoms.size) 0
      (allReferences (order.map captured)) := by
    intro name member
    refine ⟨rfl, fun fuel frame enough => ?_⟩
    exact Grammar.follows_rule built compiles_rulesWith 4 (closedWithin_cons (closed name member))
      enough (fun _ _ => rfl) frame
  have quiet : ∀ pattern ∈ allPatterns (order.map captured),
      (Regex.anchored? pattern).isSome := by
    intro pattern used
    rw [allPatterns_captured] at used
    cases used
  have follows := Grammar.holds_readEach (Grammar.inherited_follows _ _) (order.map captured) placed
    quiet resolves (allMeet_true _ _) (Nat.le_refl _) {}
  rw [readEach_congr _ fun name member => readRule_rulesWith (closed name member),
    readEach_captured, ← same] at follows
  exact ⟨_, forall₂_map_right_iff.mp follows⟩

/-- At one place, alternatives that match are the same one: the rules of both read there. -/
theorem alternatives_eq_of_matches {parser : Parser} (own : parser.grammar = grammar)
    {cursor : Cursor} (inside : cursor.In parser.input) {first second : Nat}
    (member : first ∈ grammar.alternatives) (member' : second ∈ grammar.alternatives)
    (matchesFirst : parser.Matches first cursor) (matchesSecond : parser.Matches second cursor) :
    first = second := by
  subst own
  obtain ⟨fuel, follows⟩ := follows_alternatives permuted built
  have distinct : order.Nodup := permuted.nodup_iff.mpr (by decide)
  -- An alternative is known by its place: one rule stands there, and each rule at one place.
  have read : ∀ {index : Nat} {option : Nat}, parser.grammar.alternatives[index]? = some option →
      parser.Matches option cursor → ∃ name, order[index]? = some name ∧
        name ∈ elementLabels ∧ (readRule rules 5 name cursor.rest).isSome := by
    intro index option found matchesOption
    obtain ⟨here, rfl⟩ := List.getElem?_eq_some_iff.mp found
    have here' : index < order.length := follows.length_eq ▸ here
    have reads := matchesOption.isSome_read inside (follows.get here here')
    rw [Reader.map, isSome_map] at reads
    exact ⟨order[index], List.getElem?_eq_getElem here',
      permuted.mem_iff.mp (getElem_mem here'), reads⟩
  obtain ⟨index, found⟩ := mem_iff_getElem?.mp member
  obtain ⟨index', found'⟩ := mem_iff_getElem?.mp member'
  obtain ⟨name, named, known, reads⟩ := read found matchesFirst
  obtain ⟨name', named', known', reads'⟩ := read found' matchesSecond
  have same := element_exclusive 0 known known' reads reads'
  have indices : index = index' := by
    apply (List.getElem?_inj (List.getElem?_eq_some_iff.mp named).1 distinct).mp
    rw [named, named', same]
  rw [indices, found'] at found
  exact (some.inj found).symm

end Built

end Permuted

/-- At no place of any input do two alternatives of a body match. So in whatever order the grammar
tries them, the same texts are read as comments, and as the same ones. -/
theorem alternatives_exclusive {order : List String} (permuted : order.Perm elementLabels) :
    ∃ grammar, Grammar.build (rulesWith order) = .ok grammar ∧
      Forall₂ grammar.CapturesRule grammar.alternatives order ∧
      (∀ parser : Parser, parser.grammar = grammar → ∀ cursor, cursor.In parser.input →
        ∀ first ∈ grammar.alternatives, ∀ second ∈ grammar.alternatives,
          parser.Matches first cursor → parser.Matches second cursor → first = second) ∧
      ∀ text comment,
        readWith (.ok grammar) (ofTree text) text = .ok comment ↔ parse text = .ok comment := by
  obtain ⟨grammar, built⟩ := exists_build_rulesWith permuted
  refine ⟨grammar, built, capturesRule_alternatives permuted built, ?_, fun text comment => ?_⟩
  · intro parser own cursor inside first member second member' matchesFirst matchesSecond
    exact alternatives_eq_of_matches permuted built own inside member member' matchesFirst
      matchesSecond
  · rw [← built, readWith_build built compiles_rulesWith rfl (closed_root permuted) (by decide),
      readRule_permuted permuted, parse, readWith_eq_ok_iff]

/-- The alternatives can be tried from the last one to the first. -/
theorem alternatives_reversed :
    elementLabels.reverse.Perm elementLabels ∧
      ∃ grammar, Grammar.build (rulesWith elementLabels.reverse) = .ok grammar ∧
        Forall₂ grammar.CapturesRule grammar.alternatives elementLabels.reverse ∧
        (∀ parser : Parser, parser.grammar = grammar → ∀ cursor, cursor.In parser.input →
          ∀ first ∈ grammar.alternatives, ∀ second ∈ grammar.alternatives,
            parser.Matches first cursor → parser.Matches second cursor → first = second) ∧
        ∀ text comment,
          readWith (.ok grammar) (ofTree text) text = .ok comment ↔ parse text = .ok comment :=
  ⟨reverse_perm _, alternatives_exclusive (reverse_perm _)⟩

end Document.Block

end Reflow
