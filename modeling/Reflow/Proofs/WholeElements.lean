import Reflow.Proofs.MaximalRuns

/-!
# Elements found again

The tokens of an element are taken as that element wherever nothing follows that it would have taken
in (`ElementOf.element_eq`). This is the converse of `step_element`. So the tokens of elements that
stand apart are read as these elements (`runs_elements`).
-/

namespace Reflow.Document.Block

open Text Layout List

variable {taken rest : List Lexeme} {kind : Construct} {header : TagLine} {more : List TagLine}
  {piece : Piece} {kind? other? : Option Construct}

/-! ## First tokens -/

/-- The kinds of elements that another element can take in. -/
def takenKinds : List (Option Construct) :=
  [none, some .param, some .table, some .listItems, some .details]

theorem mem_takenKinds (member : other? ∈ takenIn kind?) : other? ∈ takenKinds := by
  have listed : ∀ kind?, ∀ other? ∈ takenIn kind?, other? ∈ takenKinds := by
    rintro (_ | kind)
    · decide
    · cases kind <;> decide
  exact listed kind? other? member

theorem begins_of_starts (listed : kind? ∈ takenKinds) (starts : Starts kind? rest) :
    Begins kind? rest := by
  simp only [takenKinds, mem_cons, not_mem_nil, or_false] at listed
  rcases rest with _ | ⟨⟨source, token⟩, others⟩
  · rcases listed with rfl | rfl | rfl | rfl | rfl <;> cases starts
  refine ⟨_, _, rfl, ?_⟩
  rcases listed with rfl | rfl | rfl | rfl | rfl <;> cases token with
  | header kind line => cases kind <;> first | rfl | cases starts
  | _ => first | rfl | cases starts

/-- What begins with a token of one kind does not start another one. -/
theorem not_starts (begins : Begins kind? taken) (listed : other? ∈ takenKinds)
    (different : kind? ≠ other?) (rest : List Lexeme) : ¬ Starts other? (taken ++ rest) := by
  intro starts
  obtain ⟨first, others, rfl, same⟩ := begins
  obtain ⟨_, _, whole, other⟩ := begins_of_starts listed starts
  cases whole
  exact different (same.symm.trans other)

theorem ends_of_not_starts (stops : ¬ Starts (some .details) rest) : Ends rest := by
  intro lexeme found line same
  obtain ⟨others, rfl⟩ := List.head?_eq_some_iff.mp found
  refine stops ?_
  rw [Starts, proseLine, takeOne, same]
  rfl

/-! ## Runs of parameters -/

/-- What is taken of a run behind its first parameters. -/
def separated : Taking Lexeme (Text × RunEntry) :=
  takeEach [innerSeparator, takeSome parameter]

section Entries

variable {value : Text × RunEntry}

theorem EntryOf.taken_parameter (entryFrom : EntryOf taken value) {entry : Parameter}
    (same : value.2 = .parameter entry) (ends : Ends rest) :
    Block.parameter (taken ++ rest) = some ([value], rest) := by
  cases entryFrom with
  | separator tokens => cases same
  | @parameter kind header more parameterKind tokens =>
    have found : parameterOf kind (taken ++ rest) =
        some ([(textOf taken, .parameter ⟨kind, header :: more⟩)], rest) :=
      takeText_append (marked_append tokens ends)
    obtain ⟨⟨source, token⟩, others, rfl, rfl, _⟩ := map_eq_cons_iff.mp tokens
    cases kind with
    | tparam =>
      rw [Block.parameter, takeFirst, found]
      rfl
    | param =>
      have other : parameterOf .tparam (⟨source, .header .param header⟩ :: others ++ rest) = none :=
        rfl
      rw [Block.parameter, takeFirst, takeFirst, other, found]
      rfl
    | _ => cases parameterKind

/-- Separators are taken up to where none starts. -/
theorem separatorLines_append {first : Text} {others : List Text}
    (tokens : tokensOf taken = (first :: others).map .separator) (stops : ¬ Starts none rest) :
    ∃ values, separatorLines (taken ++ rest) = some (values, rest) := by
  have runs : Runs separatorLine (taken ++ rest) _ rest :=
    runs_spelled (fun _ => rfl) tokens (Option.not_isSome_iff_eq_none.mp stops)
  exact ⟨_, (shortens_takeOne _).takeSome_of_ne_nil runs (by simp)⟩

theorem EntryOf.taken_separator (entryFrom : EntryOf taken value) {line : Text}
    (same : value.2 = .separator line) (stops : ¬ Starts none rest) :
    innerSeparator (taken ++ rest) = some ([value], rest) ∧ Begins none taken := by
  cases entryFrom with
  | parameter _ _ => cases same
  | separator tokens =>
    obtain ⟨values, found⟩ := separatorLines_append tokens stops
    refine ⟨takeText_append found, ?_⟩
    obtain ⟨first, others, rfl, token, _⟩ := map_eq_cons_iff.mp tokens
    exact ⟨first, others, rfl, by rw [token]; rfl⟩

end Entries

/-- A parameter is neither prose nor a separator. -/
theorem stops_of_parameter (starts : Starts (some .param) rest) :
    Ends rest ∧ ¬ Starts none rest := by
  have begins := begins_of_starts (by decide) starts
  have prose := not_starts begins (by decide : some .details ∈ takenKinds) (by decide) []
  have separator := not_starts begins (by decide : none ∈ takenKinds) (by decide) []
  rw [append_nil] at prose separator
  exact ⟨ends_of_not_starts prose, separator⟩

/-- The entries of a tidied run are taken as its first parameters and what stands behind them. -/
theorem Tidy.exists_runs {entries : List RunEntry} (tidy : Tidy entries) (ends : Ends rest)
    (refused : parameter rest = none) (refusedLater : separated rest = none)
    {groups : List (List Lexeme)} {values : List (Text × RunEntry)}
    (each : Forall₂ EntryOf groups values) (same : values.map (·.2) = entries) :
    ∃ front middle later, values = front ++ later ∧
      Runs parameter (groups.flatten ++ rest) front middle ∧ Runs separated middle later rest ∧
      Starts (some .param) (groups.flatten ++ rest) := by
  induction tidy generalizing groups values with
  | last entry =>
    obtain ⟨value, others, rfl, isEntry, nothing⟩ := map_eq_cons_iff.mp same
    obtain rfl := map_eq_nil_iff.mp nothing
    obtain ⟨group, _, first, ⟨⟩, rfl⟩ := forall₂_cons_right_iff.mp each
    have found := first.taken_parameter isEntry ends
    rw [flatten_singleton]
    exact ⟨[value], rest, [], rfl, .again found (.stop refused), .stop refusedLater,
      Option.isSome_of_eq_some found⟩
  | next entry tidy ih =>
    obtain ⟨value, others, rfl, isEntry, sameLater⟩ := map_eq_cons_iff.mp same
    obtain ⟨group, groups, first, eachLater, rfl⟩ := forall₂_cons_right_iff.mp each
    obtain ⟨front, middle, later, rfl, runs, runsLater, starts⟩ := ih eachLater sameLater
    have found := first.taken_parameter isEntry (stops_of_parameter starts).1
    rw [flatten_cons, append_assoc]
    exact ⟨value :: front, middle, later, rfl, .again found runs, runsLater,
      Option.isSome_of_eq_some found⟩
  | gap entry line tidy ih =>
    obtain ⟨value, _, rfl, isEntry, sameGap⟩ := map_eq_cons_iff.mp same
    obtain ⟨gap, others, rfl, separating, sameLater⟩ := map_eq_cons_iff.mp sameGap
    obtain ⟨group, _, first, eachGap, rfl⟩ := forall₂_cons_right_iff.mp each
    obtain ⟨between, groups, second, eachLater, rfl⟩ := forall₂_cons_right_iff.mp eachGap
    obtain ⟨front, middle, later, rfl, runs, runsLater, starts⟩ := ih eachLater sameLater
    obtain ⟨foundGap, begins⟩ :=
      second.taken_separator separating (stops_of_parameter starts).2
    have prose := not_starts begins (by decide : some .details ∈ takenKinds) (by decide)
      (groups.flatten ++ rest)
    have noParameter := not_starts begins (by decide : some .param ∈ takenKinds) (by decide)
      (groups.flatten ++ rest)
    have found := first.taken_parameter isEntry (ends_of_not_starts prose)
    have parameters := shortens_parameter.takeSome_eq runs starts
    have round : separated (between ++ (groups.flatten ++ rest)) = some (gap :: front, middle) := by
      refine takeEach_cons_eq_some.mpr ⟨_, _, front, foundGap, ?_, rfl⟩
      exact takeEach_cons_eq_some.mpr ⟨front, middle, [], parameters, rfl, by simp⟩
    rw [flatten_cons, flatten_cons, append_assoc, append_assoc]
    exact ⟨[value], _, gap :: (front ++ later), rfl,
      .again found (.stop (Option.not_isSome_iff_eq_none.mp noParameter)),
      .again round runsLater, Option.isSome_of_eq_some found⟩

/-! ## Bullet items -/

theorem anyBulletItem_append {item : ListItem} (ofItem : ItemOf taken item) (ends : Ends rest) :
    anyBulletItem (taken ++ rest) = some ([item], rest) ∧ Begins (some .listItems) taken := by
  cases ofItem with
  | @item start more tokens =>
    obtain ⟨⟨source, token⟩, others, rfl, rfl, later⟩ := map_eq_cons_iff.mp tokens
    have prose := (shortens_takeOne _).takeMany_eq
      (runs_prose (fun line => ItemPart.line line.contents) later ends)
    have found : ∀ test : ListItem → Bool, test start →
        bulletItem start.breaking test (⟨source, .bullet start⟩ :: others ++ rest) =
          some ([{ start with contents := start.contents ++ more.map (·.contents) }], rest) := by
      intro test passes
      have first : takeOne (fun lexeme : Lexeme => startValue? test lexeme.token)
          (⟨source, .bullet start⟩ :: others ++ rest) =
            some ([.start { start with breaking := false }], others ++ rest) := by
        rw [cons_append, takeOne, startValue?, if_pos passes]
        rfl
      have made : bulletItem start.breaking test (⟨source, .bullet start⟩ :: others ++ rest) =
          some ([itemOfParts start.breaking (.start { start with breaking := false } ::
            more.flatMap fun line => [.line line.contents])], rest) :=
        takeText_append (takeEach_cons_eq_some.mpr ⟨_, _, _, first,
          takeEach_cons_eq_some.mpr ⟨_, rest, [], prose, rfl, (append_nil _).symm⟩, rfl⟩)
      rw [made, itemOfParts_start]
    refine ⟨?_, _, _, rfl, rfl⟩
    obtain ⟨breaking⟩ := start
    rw [anyBulletItem_eq, takeFirst, takeFirst]
    cases breaking with
    | true =>
      rw [found _ rfl]
      rfl
    | false =>
      rw [found _ rfl]
      rfl

/-- Bullet items are taken one after the other. -/
theorem runs_items {groups : List (List Lexeme)} {items : List ListItem}
    (each : Forall₂ ItemOf groups items) (ends : Ends rest) (refused : anyBulletItem rest = none) :
    Runs anyBulletItem (groups.flatten ++ rest) items rest ∧ Ends (groups.flatten ++ rest) := by
  induction each with
  | nil => exact ⟨.stop refused, ends⟩
  | cons first _ ih =>
    obtain ⟨found, begins⟩ := anyBulletItem_append first ih.2
    rw [flatten_cons, append_assoc]
    exact ⟨.again found ih.1, ends_of_not_starts (not_starts begins (by decide) (by decide) _)⟩

/-! ## Elements -/

theorem separated_eq_none (across : ∀ values more, separatorLines rest = some (values, more) →
    ¬ Starts (some .param) more) : separated rest = none := by
  rw [separated, takeEach, innerSeparator, takeText]
  cases found : separatorLines rest with
  | none => rfl
  | some pair =>
    have refused : takeSome parameter pair.2 = none := if_neg (across pair.1 pair.2 found)
    simp only [Option.map_some, Option.bind_some, takeEach, refused, Option.bind_none,
      Option.map_none]

/-- What comes behind an element of a kind would not be taken in by it. -/
structure Parted (kind? : Option Construct) (rest : List Lexeme) : Prop where
  stops : ∀ other? ∈ takenIn kind?, ¬ Starts other? rest
  across : kind? = some .param → ∀ values more,
    separatorLines rest = some (values, more) → ¬ Starts (some .param) more

theorem parted_nil (kind? : Option Construct) : Parted kind? [] where
  stops other? member starts := by
    obtain ⟨_, _, ⟨⟩, _⟩ := begins_of_starts (mem_takenKinds member) starts
  across _ values more found := by cases found

theorem begins_of_tokens {token : Token} {others : List Token}
    (tokens : tokensOf taken = token :: others) :
    Begins token.kind? taken := by
  obtain ⟨first, more, rfl, rfl, _⟩ := map_eq_cons_iff.mp tokens
  exact ⟨first, more, rfl, rfl⟩

section Elements

variable (elementOf : ElementOf taken piece)
  (tidy : ∀ entries, piece.item = .paragraph (.parameters entries) → Tidy entries)

include elementOf tidy

/-- The first token of an element tells its kind. -/
theorem ElementOf.begins : Begins piece.item.kind? taken := by
  cases elementOf with
  | separator tokens | code tokens | table tokens | link tokens => exact begins_of_tokens tokens
  | @marked kind header more member tokens =>
    have plain : ∀ kind ∈ markedKinds, kind.isParameter = false := by decide
    have begins := begins_of_tokens tokens
    rw [Token.kind?, plain kind member] at begins
    simpa [Piece.item, BlockItem.kind?, kind_ofLines] using begins
  | @reference kind line member tokens =>
    have plain : ∀ kind ∈ referenceKinds, kind.isParameter = false := by decide
    have begins := begins_of_tokens tokens
    rwa [Token.kind?, plain kind member] at begins
  | details someLine tokens =>
    obtain ⟨line, lines, rfl⟩ := exists_cons_of_ne_nil someLine
    exact begins_of_tokens tokens
  | run whole each =>
    obtain ⟨entry, _, same⟩ := (tidy _ rfl).head
    obtain ⟨value, _, rfl, isEntry, _⟩ := map_eq_cons_iff.mp same
    obtain ⟨group, groups, first, _, rfl⟩ := forall₂_cons_right_iff.mp each
    cases first with
    | separator _ => cases isEntry
    | parameter parameterKind tokens =>
      obtain ⟨first, others, rfl, kind⟩ := begins_of_tokens tokens
      rw [Token.kind?, parameterKind] at kind
      exact ⟨first, _, whole, kind⟩
  | items someItem whole each =>
    obtain ⟨item, items, rfl⟩ := exists_cons_of_ne_nil someItem
    obtain ⟨group, groups, ⟨tokens⟩, _, rfl⟩ := forall₂_cons_right_iff.mp each
    obtain ⟨first, others, rfl, kind⟩ := begins_of_tokens tokens
    exact ⟨first, _, whole, kind⟩

/-- The tokens of an element are taken as the element wherever nothing follows that it would have
taken in. -/
theorem ElementOf.element_eq (parted : Parted piece.item.kind? rest) :
    element (taken ++ rest) = some ([piece], rest) := by
  rw [element_of_kind (elementOf.begins tidy)]
  cases elementOf with
  | separator tokens =>
    obtain ⟨values, found⟩ := separatorLines_append tokens (parted.stops none mem_cons_self)
    change separatorPiece (taken ++ rest) = _
    exact piece_append found
  | @marked kind header more member tokens =>
    rw [Piece.item, BlockItem.kind?, kind_ofLines] at parted ⊢
    have facts : elementFor (some kind) = paragraphOf kind (Block.marked kind) ∧
        some .details ∈ takenIn (some kind) := by
      simp only [markedKinds, mem_cons, not_mem_nil, or_false] at member
      rcases member with rfl | rfl | rfl | rfl | rfl <;> exact ⟨rfl, mem_cons_self⟩
    rw [facts.1]
    exact piece_append (marked_append tokens (ends_of_not_starts (parted.stops _ facts.2)))
  | @reference kind line member tokens =>
    have facts : elementFor (some kind) = paragraphOf kind (markedLine kind) ∧
        ofLines kind [line] = .reference kind line := by
      simp only [referenceKinds, mem_cons, not_mem_nil, or_false] at member
      rcases member with rfl | rfl | rfl <;> exact ⟨rfl, rfl⟩
    obtain ⟨first, rfl, same⟩ := exists_single tokens
    have found : markedLine kind ([first] ++ rest) = some ([line], rest) := by
      rw [singleton_append, markedLine, takeOne, same, headerLine?, if_pos rfl]
      rfl
    change elementFor (some kind) _ = _
    rw [facts.1, paragraphOf, piece_append found, facts.2]
  | @code header body close tokens =>
    obtain ⟨first, rfl, same⟩ := exists_single tokens
    have parts : takeOne (fun lexeme : Lexeme => codeParts? lexeme.token) ([first] ++ rest) =
        some (.header header :: body.map .line ++ [.close close], rest) := by
      rw [singleton_append, takeOne, same]
      rfl
    change codePiece ([first] ++ rest) = _
    rw [codePiece, piece_append parts, codeOfParts_eq]
  | table tokens =>
    have runs : Runs rowLine (taken ++ rest) _ rest := runs_spelled (fun _ => rfl) tokens
      (Option.not_isSome_iff_eq_none.mp (parted.stops _ mem_cons_self))
    change verbatimOf .table tableRows (taken ++ rest) = _
    exact piece_append ((shortens_takeOne _).takeSome_of_ne_nil runs (by simp))
  | @link line tokens =>
    obtain ⟨first, rfl, same⟩ := exists_single tokens
    have found : linkTarget ([first] ++ rest) = some (line ++ ['\n'], rest) := by
      rw [singleton_append, linkTarget, takeOne, same]
      rfl
    change verbatimOf .referenceLink linkTarget ([first] ++ rest) = _
    exact piece_append found
  | @details lines someLine tokens =>
    have runs := runs_prose id tokens (ends_of_not_starts (parted.stops _ mem_cons_self))
    rw [← map_eq_flatMap, map_id] at runs
    change paragraphOf .details proseLines (taken ++ rest) = _
    exact piece_append ((shortens_takeOne _).takeSome_of_ne_nil runs someLine)
  | @run groups entries whole each =>
    have refused : parameter rest = none :=
      Option.not_isSome_iff_eq_none.mp (parted.stops _ mem_cons_self)
    have prose := parted.stops (some .details) (mem_cons_of_mem _ mem_cons_self)
    obtain ⟨front, middle, later, rfl, runs, runsLater, starts⟩ := (tidy _ rfl).exists_runs
      (ends_of_not_starts prose) refused (separated_eq_none (parted.across rfl)) each rfl
    rw [← whole] at runs starts
    have found : parameterRun (taken ++ rest) = some (front ++ later, rest) := by
      refine takeEach_cons_eq_some.mpr
        ⟨front, middle, later, shortens_parameter.takeSome_eq runs starts, ?_, rfl⟩
      exact takeEach_cons_eq_some.mpr ⟨later, rest, [], shortens_separated.takeMany_eq runsLater,
        rfl, (append_nil _).symm⟩
    change runPiece (taken ++ rest) = _
    exact takeText_append found
  | @items groups items someItem whole each =>
    have refused : anyBulletItem rest = none :=
      Option.not_isSome_iff_eq_none.mp (parted.stops _ mem_cons_self)
    have prose := parted.stops (some .details) (mem_cons_of_mem _ mem_cons_self)
    have runs := (runs_items each (ends_of_not_starts prose) refused).1
    rw [← whole] at runs
    change itemsPiece (taken ++ rest) = _
    exact piece_append (shortens_anyBulletItem.takeSome_of_ne_nil runs someItem)

end Elements

/-! ## Bodies -/

/-- Kinds of elements in a row of which none takes in the next one and no separator stands between
two runs of parameters. -/
structure Standing (kinds : List (Option Construct)) : Prop where
  untaken : kinds.IsChain fun first second => second ∉ takenIn first
  across : ¬ [some .param, none, some .param] <:+: kinds

theorem Standing.tail {kinds : List (Option Construct)} (standing : Standing (kind? :: kinds)) :
    Standing kinds where
  untaken := standing.untaken.tail
  across inside := standing.across (infix_cons inside)

def kindsOf (pieces : List Piece) : List (Option Construct) := pieces.map (·.item.kind?)

def Whole (policy : UnnamedPolicy) (taken : List Lexeme) (piece : Piece) : Prop :=
  ElementOf taken piece ∧ tidyItem policy piece.item = [piece.item]

variable {policy : UnnamedPolicy} {groups : List (List Lexeme)} {pieces : List Piece}

theorem Whole.tidy (whole : Whole policy taken piece) (entries : List RunEntry)
    (runHere : piece.item = .paragraph (.parameters entries)) : Tidy entries := by
  have member : .paragraph (.parameters entries) ∈ [piece.item].flatMap (tidyItem policy) := by
    rw [flatMap_singleton, whole.2, runHere]
    exact mem_cons_self
  exact tidy_of_mem member

theorem ElementOf.exists_separators (elementOf : ElementOf taken piece)
    (separating : piece.item.kind? = none) :
    ∃ first others, tokensOf taken = (first :: others).map .separator := by
  cases elementOf with
  | separator tokens => exact ⟨_, _, tokens⟩
  | _ => cases separating

section Bodies

variable (each : Forall₂ (Whole policy) groups pieces)

include each

/-- The kind of the first element is told by the first token. -/
theorem starts_flatten (listed : kind? ∈ takenKinds) (starts : Starts kind? groups.flatten) :
    (kindsOf pieces).head? = some kind? := by
  obtain ⟨first, others, whole, rfl⟩ := begins_of_starts listed starts
  cases each with
  | nil => cases whole
  | cons here _ =>
    obtain ⟨head, others, rfl, same⟩ := here.1.begins here.tidy
    cases whole
    exact congrArg some same.symm

theorem not_starts_flatten (standing : Standing (kind? :: kindsOf pieces))
    (member : other? ∈ takenIn kind?) : ¬ Starts other? groups.flatten := by
  intro starts
  have head := starts_flatten each (mem_takenKinds member) starts
  exact (isChain_cons.mp standing.untaken).1 other? head member

/-- What stands behind an element is parted from it if their kinds are. -/
theorem parted_flatten (standing : Standing (kind? :: kindsOf pieces)) :
    Parted kind? groups.flatten := by
  refine ⟨fun _ => not_starts_flatten each standing, ?_⟩
  rintro rfl values more found starts
  have separates : Starts none groups.flatten := ((shortens_takeOne _).runs_takeSome found).1
  have head := starts_flatten each (by decide) separates
  cases each with
  | nil => cases head
  | @cons group piece groups pieces first later =>
    have separating : piece.item.kind? = none := Option.some.inj head
    have kinds : kindsOf (piece :: pieces) = none :: kindsOf pieces :=
      congrArg (· :: _) separating
    rw [kinds] at standing
    obtain ⟨_, _, tokens⟩ := first.1.exists_separators separating
    obtain ⟨_, taken⟩ := separatorLines_append tokens
      (not_starts_flatten later standing.tail mem_cons_self)
    rw [flatten_cons, taken] at found
    cases found
    obtain ⟨rest, same⟩ := List.head?_eq_some_iff.mp (starts_flatten later (by decide) starts)
    exact standing.across ⟨[], rest, by rw [same]; rfl⟩

/-- Elements that stand apart are read from their tokens. -/
theorem runs_elements (standing : Standing (kindsOf pieces)) :
    Runs element groups.flatten pieces [] := by
  induction each with
  | nil => exact .stop rfl
  | cons first later ih =>
    have here := first.1.element_eq first.tidy (parted_flatten later standing)
    exact .again here (ih standing.tail)

theorem normalize_pieces (standing : Standing (kindsOf pieces)) :
    normalize policy (pieces.map Piece.item) = pieces.map Piece.item := by
  have tidy : (pieces.map Piece.item).flatMap (tidyItem policy) = pieces.map Piece.item := by
    rw [flatMap_map, map_eq_flatMap]
    refine flatMap_congr fun piece member => ?_
    obtain ⟨taken, _, whole⟩ := each.exists_of_mem member
    exact whole.2
  have chain := (isChain_map _).mp standing.untaken
  rw [normalize, tidy]
  refine collapse_of_isChain _ ((isChain_map _).mpr (chain.imp fun _ _ untaken both => ?_))
  have kindOf : ∀ item : BlockItem, item.isSeparator → item.kind? = none := by
    intro item separating
    cases item with
    | separator line => rfl
    | paragraph content => cases separating
  rw [kindOf _ both.1, kindOf _ both.2] at untaken
  exact untaken mem_cons_self

end Bodies

end Reflow.Document.Block
