import Reflow.Proofs.ConstructRereading
import Reflow.Proofs.FlatBodies

/-!
# Elements that are taken as a whole

Every element of a body takes as many tokens as it can, so it ends where nothing starts that it
would have taken in (`Step`). Hence no two neighbours of a body could have been one element, and two
runs of parameters have more between them than a separator (`elements_maximal`). What parts two runs
stays when a body is normalized.
-/

namespace Reflow

open List Option Construct

/-! ## Where repetitions stop -/

section Repetitions

variable {τ γ : Type} {taking : Taking τ γ} {tokens rest : List τ} {values : List γ}

/-- Runs take nothing, or they end with something that is taken. -/
theorem Runs.exists_last (runs : Runs taking tokens values rest) :
    rest = tokens ∨ ∃ here last, taking here = some (last, rest) := by
  induction runs with
  | stop _ => exact .inl rfl
  | again taken _ ih =>
    rcases ih with rfl | found
    · exact .inr ⟨_, _, taken⟩
    · exact .inr found

namespace Taking

theorem Shortens.runs_takeMany (shortens : taking.Shortens)
    (found : takeMany taking tokens = some (values, rest)) : Runs taking tokens values rest := by
  have runs := shortens.runs_takeAll tokens
  rwa [some.inj found] at runs

/-- A repetition that has to take something ends with something that is taken. -/
theorem Shortens.exists_last (shortens : taking.Shortens)
    (found : Reflow.takeSome taking tokens = some (values, rest)) :
    ∃ here last, taking here = some (last, rest) := by
  obtain ⟨first, runs⟩ := shortens.runs_takeSome found
  rcases runs.exists_last with rfl | last
  · rw [runs.refused] at first
    cases first
  · exact last

end Taking

/-- A sequence of two takes with the first and then with the second. -/
theorem takeEach_pair {first second : Taking τ γ}
    (found : takeEach [first, second] tokens = some (values, rest)) :
    ∃ start mid later, first tokens = some (start, mid) ∧ second mid = some (later, rest) := by
  obtain ⟨start, mid, _, taken, found, _⟩ := takeEach_cons_eq_some.mp found
  obtain ⟨later, _, _, takenLater, ended, _⟩ := takeEach_cons_eq_some.mp found
  cases ended
  exact ⟨start, mid, later, taken, takenLater⟩

theorem exists_of_takeFirst {takings : List (Taking τ γ)}
    (found : takeFirst takings tokens = some (values, rest)) :
    ∃ taking ∈ takings, taking tokens = some (values, rest) := by
  induction takings with
  | nil => cases found
  | cons taking takings ih =>
    rcases or_eq_some_iff.mp found with first | ⟨_, later⟩
    · exact ⟨taking, mem_cons_self, first⟩
    · obtain ⟨other, member, same⟩ := ih later
      exact ⟨other, mem_cons_of_mem _ member, same⟩

end Repetitions

namespace Document

def BlockItem.kind? : BlockItem → Option Construct
  | paragraph content => some content.kind
  | separator _ => none

def BlockItem.isRun : BlockItem → Bool
  | paragraph (.parameters _) => true
  | _ => false

namespace Block

open Text Layout

/-! ## Where elements start and stop -/

def separatorLine : Taking Lexeme Char := takeOne fun lexeme => separatorValue? id lexeme.token

def rowLine : Taking Lexeme Char := takeOne fun lexeme => rowText? lexeme.token

/-- What an element of a kind begins with is there to be taken, for the kinds that an element can
take in. -/
def Starts : Option Construct → List Lexeme → Prop
  | none, tokens => (separatorLine tokens).isSome = true
  | some .param, tokens => (parameter tokens).isSome = true
  | some .table, tokens => (rowLine tokens).isSome = true
  | some .listItems, tokens => (anyBulletItem tokens).isSome = true
  | some .details, tokens => (proseLine id tokens).isSome = true
  | some _, _ => True

/-- The kinds of elements that an element would have taken in. -/
def takenIn : Option Construct → List (Option Construct)
  | none => [none]
  | some .param => [some .param, some .details]
  | some .listItems => [some .listItems, some .details]
  | some .table => [some .table]
  | some .brief | some .returns | some .note | some .warning | some .throws | some .details =>
    [some .details]
  | some _ => []

/-- An element is taken off some tokens: it begins there, and nothing that it would have taken in
starts where it stops. Separators are all taken, and behind them no parameter starts if they stand
behind a run. -/
structure Step (tokens : List Lexeme) (item : BlockItem) (rest : List Lexeme) : Prop where
  begins : Starts item.kind? tokens
  stops : ∀ kind? ∈ takenIn item.kind?, ¬ Starts kind? rest
  separates : item.kind? = none → ∃ values, separatorLines tokens = some (values, rest)
  across : item.kind? = some .param → ∀ values more,
    separatorLines rest = some (values, more) → ¬ Starts (some .param) more

variable {γ : Type} {item : BlockItem} {items : List BlockItem} {taking : Taking Lexeme γ}

section Stops

variable {tokens rest : List Lexeme}

/-- A line of prose is refused whatever is made of it. -/
theorem proseLine_refused {make : TagLine → γ} (refused : proseLine make tokens = none) :
    proseLine id tokens = none := by
  cases tokens with
  | nil => rfl
  | cons lexeme tokens =>
    rw [proseLine, takeOne, map_eq_none_iff] at refused ⊢
    cases same : lexeme.token with
    | text line => rw [same] at refused; cases refused
    | _ => rfl

/-- No prose starts behind what takes all prose that follows. -/
theorem not_starts_details {make : TagLine → γ} {values : List γ}
    (found : takeEach [taking, takeMany (proseLine make)] tokens = some (values, rest)) :
    ¬ Starts (some .details) rest := by
  obtain ⟨_, _, _, _, prose⟩ := takeEach_pair found
  have refused := ((shortens_takeOne _).runs_takeMany prose).refused
  exact not_isSome_iff_eq_none.mpr (proseLine_refused refused)

theorem exists_of_takeText {δ : Type} {make : List γ → Text → List δ} {made : List δ}
    (found : takeText lexer make taking tokens = some (made, rest)) :
    ∃ values text, taking tokens = some (values, rest) ∧ made = make values text := by
  obtain ⟨⟨values, _⟩, first, same⟩ := map_eq_some_iff.mp found
  obtain ⟨rfl, rfl⟩ := Prod.mk.inj same
  exact ⟨values, _, first, rfl⟩

variable {values : List (Text × RunEntry)}

/-- No prose starts behind a parameter. -/
theorem parameter_stops (found : parameter tokens = some (values, rest)) :
    ¬ Starts (some .details) rest := by
  obtain ⟨_, member, found⟩ := exists_of_takeFirst found
  simp only [mem_cons, not_mem_nil, or_false] at member
  rcases member with rfl | rfl
  all_goals
    obtain ⟨_, _, lines, _⟩ := exists_of_takeText found
    exact not_starts_details lines

/-- No prose starts behind a bullet item. -/
theorem anyBulletItem_stops {values : List ListItem}
    (found : anyBulletItem tokens = some (values, rest)) : ¬ Starts (some .details) rest := by
  obtain ⟨_, member, found⟩ := exists_of_takeFirst found
  simp only [mem_cons, not_mem_nil, or_false] at member
  rcases member with rfl | rfl
  all_goals
    obtain ⟨_, _, lines, _⟩ := exists_of_takeText found
    exact not_starts_details lines

/-- Neither a parameter nor prose starts behind parameters. -/
theorem parameters_stop (found : takeSome parameter tokens = some (values, rest)) :
    ¬ Starts (some .param) rest ∧ ¬ Starts (some .details) rest := by
  obtain ⟨_, runs⟩ := shortens_parameter.runs_takeSome found
  obtain ⟨_, _, last⟩ := shortens_parameter.exists_last found
  exact ⟨not_isSome_iff_eq_none.mpr runs.refused, parameter_stops last⟩

/-- Separators that are taken before parameters have no parameter behind them. -/
theorem separated_refused {values : Text} {more : List Lexeme}
    (refused : takeEach [innerSeparator, takeSome parameter] tokens = none)
    (taken : separatorLines tokens = some (values, more)) : ¬ Starts (some .param) more := by
  intro starts
  obtain ⟨⟨others, last⟩, parameters⟩ : ∃ pair, takeSome parameter more = some pair :=
    ⟨_, if_pos starts⟩
  have first : innerSeparator tokens = some (_, more) := congrArg (Option.map _) taken
  have both : takeEach [innerSeparator, takeSome parameter] tokens = some (_, last) :=
    takeEach_cons_eq_some.mpr ⟨_, _, _, first,
      takeEach_cons_eq_some.mpr ⟨_, _, [], parameters, rfl, rfl⟩, rfl⟩
  rw [refused] at both
  cases both

end Stops

section Steps

variable {tokens rest : List Lexeme} {pieces : List Piece} {make : List γ → Text → BlockItem}
  {kind : Construct} {last : List Lexeme}

theorem exists_of_piece (found : piece make taking tokens = some (pieces, rest)) :
    ∃ values text, taking tokens = some (values, rest) ∧
      pieces = [.plain text (make values text)] :=
  exists_of_takeText found

theorem kind_ofLines (kind : Construct) (lines : List TagLine) :
    (ofLines kind lines).kind = kind := by
  unfold ofLines
  split <;> rfl

/-- What is told of an element by its kind alone, unless it is a separator or a run. -/
theorem Step.of_kind (kind : Construct) (isKind : item.kind? = some kind)
    (noRun : kind ≠ .param) (begins : Starts (some kind) tokens)
    (stops : ∀ kind? ∈ takenIn (some kind), ¬ Starts kind? rest) : Step tokens item rest where
  begins := isKind ▸ begins
  stops := isKind ▸ stops
  separates noneSame := by rw [isKind] at noneSame; cases noneSame
  across runSame := absurd (some.inj (isKind.symm.trans runSame)) noRun

/-- One element was taken off, as a whole. -/
abbrev TakesStep (tokens : List Lexeme) (pieces : List Piece) (rest : List Lexeme) : Prop :=
  ∃ piece, pieces = [piece] ∧ Step tokens piece.item rest

theorem step_separators (found : separatorPiece tokens = some (pieces, rest)) :
    TakesStep tokens pieces rest := by
  obtain ⟨values, text, taken, rfl⟩ := exists_of_piece found
  obtain ⟨first, runs⟩ := (shortens_takeOne _).runs_takeSome taken
  refine ⟨_, rfl, ⟨first, ?_, fun _ => ⟨values, taken⟩, fun same => ?_⟩⟩
  · exact forall_mem_singleton.mpr (not_isSome_iff_eq_none.mpr runs.refused)
  · exact absurd same.symm (some_ne_none _)

/-- Nothing is asked of where an element starts that no other one takes in. -/
theorem starts_of_other (tokens : List Lexeme)
    (other : kind ∉ [param, .table, .listItems, .details]) :
    Starts (some kind) tokens := by
  cases kind with
  | param | table | listItems | details => exact absurd (by decide) other
  | brief | tparam | returns | code | note | warning | throws | see | related | relatedAlso
  | referenceLink | text => exact trivial

theorem step_marked (member : kind ∈ markedKinds)
    (found : paragraphOf kind (marked kind) tokens = some (pieces, rest)) :
    TakesStep tokens pieces rest := by
  obtain ⟨lines, text, taken, rfl⟩ := exists_of_piece found
  have known : ∀ kind ∈ markedKinds, kind ∉ [param, .table, .listItems, .details] ∧
      kind ≠ .param ∧ takenIn (some kind) = [some .details] := by decide
  obtain ⟨other, noRun, prose⟩ := known kind member
  refine ⟨_, rfl, .of_kind kind (congrArg some (kind_ofLines kind lines)) noRun
    (starts_of_other tokens other) ?_⟩
  rw [prose]
  exact forall_mem_singleton.mpr (not_starts_details taken)

theorem step_run (found : runPiece tokens = some (pieces, rest)) :
    TakesStep tokens pieces rest := by
  obtain ⟨entries, text, taken, rfl⟩ := exists_of_takeText found
  obtain ⟨_, mid, _, front, later⟩ := takeEach_pair taken
  have runs := shortens_separated.runs_takeMany later
  have stops : ¬ Starts (some .param) rest ∧ ¬ Starts (some .details) rest := by
    -- The run ends with its first parameters, or with those behind its last separators.
    rcases runs.exists_last with rfl | ⟨_, _, last⟩
    · exact parameters_stop front
    · obtain ⟨_, _, _, _, parameters⟩ := takeEach_pair last
      exact parameters_stop parameters
  refine ⟨_, rfl, ⟨(shortens_parameter.runs_takeSome front).1, ?_, fun same => ?_, fun _ => ?_⟩⟩
  · exact forall_mem_cons.mpr ⟨stops.1, forall_mem_singleton.mpr stops.2⟩
  · exact absurd same (some_ne_none _)
  · exact fun values more => separated_refused runs.refused

theorem step_table (found : verbatimOf .table tableRows tokens = some (pieces, rest)) :
    TakesStep tokens pieces rest := by
  obtain ⟨_, _, taken, rfl⟩ := exists_of_piece found
  obtain ⟨first, runs⟩ := (shortens_takeOne _).runs_takeSome taken
  refine ⟨_, rfl, .of_kind .table rfl (by decide) first ?_⟩
  exact forall_mem_singleton.mpr (not_isSome_iff_eq_none.mpr runs.refused)

theorem step_items (found : itemsPiece tokens = some (pieces, rest)) :
    TakesStep tokens pieces rest := by
  obtain ⟨_, _, taken, rfl⟩ := exists_of_piece found
  obtain ⟨first, runs⟩ := shortens_anyBulletItem.runs_takeSome taken
  obtain ⟨_, _, last⟩ := shortens_anyBulletItem.exists_last taken
  refine ⟨_, rfl, .of_kind .listItems rfl (by decide) first ?_⟩
  exact forall_mem_cons.mpr ⟨not_isSome_iff_eq_none.mpr runs.refused,
    forall_mem_singleton.mpr (anyBulletItem_stops last)⟩

theorem step_details (found : paragraphOf .details proseLines tokens = some (pieces, rest)) :
    TakesStep tokens pieces rest := by
  obtain ⟨_, _, taken, rfl⟩ := exists_of_piece found
  obtain ⟨first, runs⟩ := (shortens_takeOne _).runs_takeSome taken
  refine ⟨_, rfl, .of_kind .details rfl (by decide) first ?_⟩
  exact forall_mem_singleton.mpr (not_isSome_iff_eq_none.mpr runs.refused)

/-- The constructs of one token take nothing in. -/
theorem step_single (kind : Construct)
    (member : kind ∈ Construct.code :: .referenceLink :: referenceKinds)
    (isKind : ∀ values text, (make values text).kind? = some kind)
    (found : piece make taking tokens = some (pieces, rest)) : TakesStep tokens pieces rest := by
  obtain ⟨values, text, _, rfl⟩ := exists_of_piece found
  have known : ∀ kind ∈ Construct.code :: .referenceLink :: referenceKinds,
      kind ∉ [Construct.param, .table, .listItems, .details] ∧
      kind ≠ .param ∧ takenIn (some kind) = [] := by decide
  obtain ⟨other, noRun, nothing⟩ := known kind member
  refine ⟨_, rfl, .of_kind kind (isKind values text) noRun (starts_of_other tokens other) ?_⟩
  rw [nothing]
  exact forall_mem_nil _

theorem step_reference (member : kind ∈ referenceKinds)
    (found : paragraphOf kind (markedLine kind) tokens = some (pieces, rest)) :
    TakesStep tokens pieces rest := by
  have isKind : ∀ lines, (BlockItem.paragraph (ofLines kind lines)).kind? = some kind :=
    fun lines => congrArg some (kind_ofLines kind lines)
  have listed := mem_cons_of_mem .code (mem_cons_of_mem .referenceLink member)
  exact step_single kind listed (fun lines _ => isKind lines) found

/-- Whatever is taken off a body is one element, taken as a whole. -/
theorem step_element (found : element tokens = some (pieces, rest)) :
    TakesStep tokens pieces rest := by
  obtain ⟨taking, member, found⟩ := exists_of_takeFirst found
  simp only [mem_cons, not_mem_nil, or_false] at member
  rcases member with rfl | rfl | rfl | rfl | rfl | rfl | rfl | rfl | rfl | rfl | rfl | rfl | rfl |
    rfl | rfl
  · exact step_separators found
  · exact step_marked (by decide) found
  · exact step_run found
  · exact step_marked (by decide) found
  · exact step_single .code (by decide) (fun _ _ => rfl) found
  · exact step_marked (by decide) found
  · exact step_marked (by decide) found
  · exact step_marked (by decide) found
  · exact step_reference (by decide) found
  · exact step_reference (by decide) found
  · exact step_reference (by decide) found
  · exact step_table found
  · exact step_items found
  · exact step_single .referenceLink (by decide) (fun _ _ => rfl) found
  · exact step_details found

inductive Steps : List Lexeme → List BlockItem → List Lexeme → Prop
  | stop (tokens : List Lexeme) : Steps tokens [] tokens
  | next {tokens rest last : List Lexeme} {item : BlockItem} {items : List BlockItem}
      (step : Step tokens item rest) (later : Steps rest items last) :
      Steps tokens (item :: items) last

theorem steps_of_runs (runs : Runs element tokens pieces last) :
    Steps tokens (pieces.map Piece.item) last := by
  induction runs with
  | stop _ => exact .stop _
  | again taken _ ih =>
    obtain ⟨piece, rfl, step⟩ := step_element taken
    exact .next step ih

theorem Steps.drop {before : List BlockItem} (steps : Steps tokens (before ++ items) last) :
    ∃ here, Steps here items last := by
  induction before generalizing tokens with
  | nil => exact ⟨tokens, steps⟩
  | cons item before ih =>
    cases steps with
    | next _ later => exact ih later

/-- Of two neighbours, the first would not have taken the second in. -/
theorem Steps.isChain (steps : Steps tokens items last) :
    items.IsChain fun first second => second.kind? ∉ takenIn first.kind? := by
  induction steps with
  | stop => exact .nil
  | next step later ih =>
    refine isChain_cons.mpr ⟨fun next found => ?_, ih⟩
    cases later with
    | stop => cases found
    | next stepLater _ =>
      cases found
      exact fun member => step.stops _ member stepLater.begins

theorem Steps.neighbours {first second : BlockItem} (steps : Steps tokens items last)
    (inside : [first, second] <:+: items) : second.kind? ∉ takenIn first.kind? := by
  have pair := List.IsChain.infix steps.isChain inside
  exact isChain_pair.mp pair

/-- A run of parameters is not followed by separators and another one. -/
theorem Steps.across {first second : List RunEntry} {line : Text}
    (steps : Steps tokens items last) :
    ¬ [.paragraph (.parameters first), .separator line, .paragraph (.parameters second)] <:+:
      items := by
  rintro ⟨before, after, rfl⟩
  rw [append_assoc] at steps
  obtain ⟨here, steps⟩ := steps.drop
  cases steps with
  | next run later =>
    cases later with
    | next gap last =>
      cases last with
      | next other _ =>
        obtain ⟨values, taken⟩ := gap.separates rfl
        exact run.across rfl values _ taken other.begins

end Steps

/-! ## Runs that are parted -/

/-- No separator stands behind a separator, and no run of parameters behind another one or behind a
separator behind it. -/
structure RunsApart (items : List BlockItem) : Prop where
  separators : ∀ first second, ¬ [.separator first, .separator second] <:+: items
  runs : ∀ first second,
    ¬ [.paragraph (.parameters first), .paragraph (.parameters second)] <:+: items
  across : ∀ first line second,
    ¬ [.paragraph (.parameters first), .separator line, .paragraph (.parameters second)] <:+: items

theorem Steps.runsApart {tokens last : List Lexeme} (steps : Steps tokens items last) :
    RunsApart items where
  separators _ _ inside := steps.neighbours inside mem_cons_self
  runs _ _ inside := steps.neighbours inside mem_cons_self
  across _ _ _ := steps.across

def withoutSeparators (items : List BlockItem) : List BlockItem :=
  items.filter fun item => !item.isSeparator

theorem RunsApart.tail (apart : RunsApart (item :: items)) :
    RunsApart items where
  separators first second inside := apart.separators first second (infix_cons inside)
  runs first second inside := apart.runs first second (infix_cons inside)
  across first line second inside := apart.across first line second (infix_cons inside)

theorem exists_run (run : item.isRun) :
    ∃ entries, item = .paragraph (.parameters entries) := by
  unfold BlockItem.isRun at run
  split at run
  · exact ⟨_, rfl⟩
  · cases run

/-- Without its separators, a body has no two runs together. -/
theorem RunsApart.isChain (apart : RunsApart items) :
    (withoutSeparators items).IsChain (Apart BlockItem.isRun) := by
  induction items with
  | nil => exact .nil
  | cons item rest ih =>
    have later := ih apart.tail
    cases item with
    | separator line => exact later
    | paragraph content =>
      refine isChain_cons.mpr ⟨fun next found both => ?_, later⟩
      obtain ⟨first, same⟩ := exists_run both.1
      obtain ⟨second, rfl⟩ := exists_run both.2
      cases same
      -- At most one separator is left out between the two.
      cases rest with
      | nil => cases found
      | cons next rest =>
        cases next with
        | paragraph content =>
          cases found
          exact apart.runs first second ⟨[], rest, rfl⟩
        | separator line =>
          cases rest with
          | nil => cases found
          | cons next rest =>
            cases next with
            | separator other =>
              exact apart.tail.separators line other ⟨[], rest, rfl⟩
            | paragraph content =>
              cases found
              exact apart.across first line second ⟨[], rest, rfl⟩

/-- Single separators between paragraphs of which no two together are runs part the runs. -/
theorem runsApart_of_isChain (single : items.IsChain (Apart BlockItem.isSeparator))
    (chain : (withoutSeparators items).IsChain (Apart BlockItem.isRun)) : RunsApart items := by
  have parted : ∀ {first second : List RunEntry} {run : List BlockItem}, run <:+: items →
      withoutSeparators run = [.paragraph (.parameters first), .paragraph (.parameters second)] →
      False := by
    intro first second run inside same
    have pair := chain.infix (inside.filter _)
    rw [← withoutSeparators, same] at pair
    exact isChain_pair.mp pair ⟨rfl, rfl⟩
  refine ⟨fun first second inside => ?_, fun first second inside => ?_, ?_⟩
  · have pair := single.infix inside
    exact isChain_pair.mp pair ⟨rfl, rfl⟩
  · exact parted inside rfl
  · exact fun first line second inside => parted inside rfl

/-! ## Normalized bodies -/

/-- Neighbours stay apart if some that satisfy the test are replaced or left out. -/
theorem isChain_flatMap {α : Type} {test : α → Bool} {kept : α → List α} {items : List α}
    (plain : ∀ item ∈ items, test item = false → kept item = [item])
    (few : ∀ item ∈ items, kept item = [] ∨ ∃ other, kept item = [other])
    (chain : items.IsChain (Apart test)) :
    (items.flatMap kept).IsChain (Apart test) ∧
      ((∀ item ∈ items.head?, test item = false) →
        ∀ item ∈ (items.flatMap kept).head?, test item = false) := by
  induction items with
  | nil => exact ⟨.nil, fun free => free⟩
  | cons item rest ih =>
    obtain ⟨apart, chain⟩ := isChain_cons.mp chain
    obtain ⟨later, head⟩ := ih (forall_mem_cons.mp plain).2
      (forall_mem_cons.mp few).2 chain
    rw [flatMap_cons]
    cases tested : test item with
    | false =>
      rw [plain item mem_cons_self tested]
      refine ⟨isChain_cons.mpr ⟨fun next _ both => ?_, later⟩, fun _ other found => ?_⟩
      · rw [tested] at both
        exact Bool.false_ne_true both.1
      · cases found
        exact tested
    | true =>
      have free : ∀ next ∈ rest.head?, test next = false := fun next found =>
        eq_false_of_ne_true fun also => apart next found ⟨tested, also⟩
      have noHead : ¬ ∀ other ∈ (item :: rest).head?, test other = false := fun all => by
        rw [all item rfl] at tested
        cases tested
      refine ⟨?_, fun all => absurd all noHead⟩
      rcases few item mem_cons_self with noneKept | ⟨other, oneKept⟩
      · rwa [noneKept]
      · rw [oneKept]
        refine isChain_cons.mpr ⟨fun next found both => ?_, later⟩
        have unlike := head free next found
        rw [both.2] at unlike
        cases unlike

theorem withoutSeparators_collapseFrom (before : Bool) (items : List BlockItem) :
    withoutSeparators (collapseFrom BlockItem.isSeparator before items) =
      withoutSeparators items := by
  induction items generalizing before with
  | nil => rfl
  | cons item rest ih =>
    cases item with
    | paragraph content =>
      cases before <;> exact congrArg (BlockItem.paragraph content :: ·) (ih false)
    | separator line => cases before <;> exact ih true

/-- The paragraphs of a tidied body are what is left of its paragraphs. -/
theorem withoutSeparators_tidied (policy : UnnamedPolicy) (items : List BlockItem) :
    withoutSeparators (items.flatMap (tidyItem policy)) =
      (withoutSeparators items).flatMap fun item => withoutSeparators (tidyItem policy item) := by
  induction items with
  | nil => rfl
  | cons item rest ih =>
    rw [flatMap_cons, withoutSeparators, filter_append, ← withoutSeparators,
      ← withoutSeparators, ih]
    cases item with
    | paragraph content => rfl
    | separator line => rfl

theorem withoutSeparators_separators (line : Option Text) :
    withoutSeparators (separators line) = [] := by
  cases line <;> rfl

/-- At most one paragraph is left of an element. -/
theorem withoutSeparators_tidyItem (policy : UnnamedPolicy) (item : BlockItem) :
    withoutSeparators (tidyItem policy item) = [] ∨
      ∃ other, withoutSeparators (tidyItem policy item) = [other] := by
  by_cases run : ∃ entries, item = .paragraph (.parameters entries)
  · obtain ⟨entries, rfl⟩ := run
    rw [tidyItem_run, withoutSeparators, filter_append, filter_append,
      ← withoutSeparators, ← withoutSeparators, ← withoutSeparators, withoutSeparators_separators,
      withoutSeparators_separators, nil_append, append_nil]
    split
    · exact .inl rfl
    · exact .inr ⟨_, rfl⟩
  · rw [tidyItem_other policy fun entries same => run ⟨entries, same⟩]
    cases item with
    | paragraph content => exact .inr ⟨_, rfl⟩
    | separator line => exact .inl rfl

/-- What parts the runs of a body stays when the body is normalized. -/
theorem RunsApart.normalize (apart : RunsApart items) (policy : UnnamedPolicy) :
    RunsApart (normalize policy items) := by
  refine runsApart_of_isChain (isChain_collapse _ _) ?_
  rw [Block.normalize, collapse, withoutSeparators_collapseFrom, withoutSeparators_tidied]
  refine (isChain_flatMap (fun item member plain => ?_)
    (fun item _ => withoutSeparators_tidyItem policy item) apart.isChain).1
  have solid := (mem_filter.mp member).2
  rw [tidyItem_other policy fun entries same => by rw [same] at plain; cases plain]
  exact filter_cons_of_pos solid

/-- In a comment that is read, no separator stands behind a separator, and two runs of parameters
have more between them than one separator. Prose stands by itself only where nothing before it takes
prose in, and tables and bullet items stand in one piece. Separators and runs are still parted once
the comment is normalized. -/
theorem elements_maximal {text : Text} {comment : BlockComment}
    (parsed : parse text = .ok comment) :
    RunsApart comment.items ∧
    (∀ first second, [.paragraph first, .paragraph second] <:+: comment.items →
      second.kind = .details → first.kind ∉ [brief, .returns, .param, .note, .warning,
        .throws, .listItems, .details]) ∧
    (∀ first second, [.paragraph first, .paragraph second] <:+: comment.items →
      second.kind = .table → first.kind ≠ .table) ∧
    (∀ first second, [.paragraph first, .paragraph second] <:+: comment.items →
      second.kind = .listItems → first.kind ≠ .listItems) ∧
    ∀ policy, RunsApart (normalize policy comment.items) := by
  obtain ⟨_, opening, lexemes, closing, ending, _, rfl⟩ := parse_eq_ok_iff.mp parsed
  have steps := steps_of_runs (shortens_element.runs_takeAll lexemes)
  have neighbours : ∀ first second,
      [.paragraph first, .paragraph second] <:+: (takeAll element lexemes).1.map Piece.item →
      some second.kind ∉ takenIn (some first.kind) := fun _ _ => steps.neighbours
  have apart := steps.runsApart
  have prose : ∀ kind ∈ [brief, .returns, .param, .note, .warning, .throws, .listItems,
      .details], some .details ∈ takenIn (some kind) := by decide
  refine ⟨apart, fun first second inside same member => ?_,
    fun first second inside same again => ?_, fun first second inside same again => ?_,
    apart.normalize⟩
  · have taken := prose _ member
    rw [← same] at taken
    exact neighbours first second inside taken
  · refine neighbours first second inside ?_
    rw [same, again]
    exact mem_cons_self
  · refine neighbours first second inside ?_
    rw [same, again]
    exact mem_cons_self

/-- Two runs of parameters with a table and prose between them, each next to a separator. -/
def partedComment : BlockComment :=
  { start := "/**\n".toList
    items :=
      [.paragraph (.parameters [.parameter ⟨.param, [⟨" * ".toList, "<unnamed>".toList, []⟩]⟩]),
        .separator " *\n".toList,
        .paragraph (.verbatim .table " * | a\n * | b\n".toList),
        .paragraph (.contiguous .details [⟨" * ".toList, [], "cc".toList⟩]),
        .paragraph (.parameters [.parameter ⟨.param,
          [⟨" * ".toList, "y".toList, "aa".toList⟩, ⟨" * ".toList, [], "bb".toList⟩]⟩]),
        .separator " *\n".toList]
    stop := " */\n".toList }

def partedText : Text :=
  ("/**\n * @param <unnamed>\n *\n *\n * | a\n * | b\n * cc\n * @param y aa\n * bb\n *\n" ++
    " */\n").toList

theorem parse_partedComment : parse partedText = .ok partedComment := by
  exact parse_of_lines [" * @param <unnamed>".toList, " *".toList, " *".toList, " * | a".toList,
    " * | b".toList, " * cc".toList, " * @param y aa".toList, " * bb".toList, " *".toList]
    (by decide +kernel) (by decide) rfl (by decide +kernel)

theorem partedComment_maximal : RunsApart partedComment.items ∧
    table ∉ [brief, .returns, .param, .note, .warning, .throws, .listItems, .details] ∧
    normalize .drop partedComment.items = partedComment.items.drop 1 ∧
    RunsApart (partedComment.items.drop 1) := by
  have firstGone : normalize .drop partedComment.items = partedComment.items.drop 1 := by
    decide +kernel
  obtain ⟨apart, prose, _, _, normalized⟩ := elements_maximal parse_partedComment
  refine ⟨apart, ?_, firstGone, firstGone ▸ normalized .drop⟩
  exact prose _ _ ⟨partedComment.items.take 2, partedComment.items.drop 4, rfl⟩ rfl

end Block

end Document

end Reflow
