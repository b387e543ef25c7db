import Reflow.Proofs.BlockTree
import Reflow.Proofs.Layout.Lines
import Reflow.Proofs.Lists

/-!
# What the elements of a block comment are made of

The shape of the line that each token stands for, and the tokens that each element of a body is
taken from.
-/

namespace Reflow.Document.Block

open Text Layout Reflow.Expr List

/-! ## Leads -/

/-- Indentation, a star and blanks. -/
def IsLead (lead : Text) : Prop :=
  ∃ front blanks, lead = front ++ '*' :: blanks ∧ Indents front ∧
    Indents blanks ∧ blanks ≠ []

variable {front rest lead text : Text} {kind : Construct} {token : Token} {taken : List Lexeme}

theorem star?_append (indents : Indents front) (blank : rest.head?.all isIndent) :
    star? (front ++ '*' :: rest) = some (front ++ ['*'], rest) := by
  have solid : isIndent '*' = false := rfl
  rw [star?, dropWhile_append_of_pos indents, takeWhile_append_of_pos indents]
  simp [solid, stripFront?, blank]

section Found

variable {line : Text} (found : star? line = some (front, rest))

include found

theorem exists_of_star? : ∃ indents, front = indents ++ ['*'] ∧ Indents indents := by
  unfold star? at found
  split at found
  · split at found
    · cases found
      exact ⟨_, rfl, all_eq_true.mp all_takeWhile⟩
    · cases found
  · cases found

/-- The blanks behind a star that has a text make it a lead. -/
theorem isLead_of_star? {blanks : Text} (indents : Indents blanks) (someBlank : blanks ≠ []) :
    IsLead (front ++ blanks) := by
  obtain ⟨before, rfl, outside⟩ := exists_of_star? found
  exact ⟨before, blanks, by simp, outside, indents, someBlank⟩

theorem takeWhile_ne_nil_of_star?
    (text : rest.dropWhile isIndent ≠ []) : rest.takeWhile isIndent ≠ [] := by
  have blank := head_of_star? found
  cases rest with
  | nil => exact absurd rfl text
  | cons c rest =>
    have indent : isIndent c := blank
    rw [takeWhile_cons_of_pos indent]
    exact cons_ne_nil _ _

end Found

theorem IsLead.append {blanks : Text} (isLead : IsLead lead)
    (indents : Indents blanks) : IsLead (lead ++ blanks) := by
  obtain ⟨front, inner, rfl, outside, inside, someBlank⟩ := isLead
  exact ⟨front, inner ++ blanks, by simp, outside, inside.append indents, by simp [someBlank]⟩

theorem IsLead.unbroken (isLead : IsLead lead) : '\n' ∉ lead := by
  obtain ⟨front, blanks, rfl, outside, inside, _⟩ := isLead
  intro member
  rcases mem_append.mp member with early | late
  · cases outside _ early
  · rcases mem_cons.mp late with star | late
    · cases star
    · cases inside _ late

section Leads

variable {lead body : Text} (isLead : IsLead lead) (solid : ∀ c ∈ body.head?, isIndent c = false)

include isLead solid

/-- What stands behind a lead is told apart from the lead. -/
theorem star?_lead : ∃ front rest, star? (lead ++ body) = some (front, rest) ∧
    front ++ rest.takeWhile isIndent = lead ∧ rest.dropWhile isIndent = body := by
  obtain ⟨front, blanks, rfl, outside, inside, someBlank⟩ := isLead
  obtain ⟨taken, dropped⟩ := takeWhile_stop inside solid
  refine ⟨front ++ ['*'], blanks ++ body, ?_, ?_, dropped⟩
  · rw [append_assoc, cons_append]
    refine star?_append outside ?_
    obtain ⟨c, blanks, rfl⟩ := exists_cons_of_ne_nil someBlank
    exact inside c mem_cons_self
  · rw [taken]
    simp

/-- A lead in front of prose makes a line of prose. -/
theorem line?_prose (opened : opening body = .prose) :
    line? (lead ++ body) = some (.text { lead, contents := body }) := by
  obtain ⟨front, rest, star, whole, text⟩ := star?_lead isLead solid
  rw [line?, star]
  dsimp only
  rw [text, opened, whole]

/-- A lead in front of a marker makes the line that the marker opens. -/
theorem line?_command (opened : opening body = .command kind text) :
    line? (lead ++ body) = header? kind lead text := by
  obtain ⟨front, rest, star, whole, bodyEq⟩ := star?_lead isLead solid
  rw [line?, star]
  dsimp only
  rw [bodyEq, opened, whole]

end Leads

/-! ## Lines of tokens -/

theorem IsToken.exists_line {source : List Text} (known : IsToken source token)
    (noCode : ∀ header body close, token ≠ .code header body close) :
    ∃ line, source = [line] ∧ line? line = some token := by
  cases known with
  | line found => exact ⟨_, rfl, found⟩
  | code _ _ _ => exact absurd rfl (noCode _ _ _)

/-- What stands behind a star with a text there is a lead and the text. -/
theorem isLead_of_text {line : Text} (star : star? line = some (front, rest))
    (someText : rest.dropWhile isIndent ≠ []) :
    line = front ++ rest.takeWhile isIndent ++ rest.dropWhile isIndent ∧
      IsLead (front ++ rest.takeWhile isIndent) := by
  constructor
  · rw [append_assoc, takeWhile_append_dropWhile, ← star?_split star]
  · exact isLead_of_star? star (all_eq_true.mp all_takeWhile)
      (takeWhile_ne_nil_of_star? star someText)

/-- A marker that takes an argument has a word for it, and any other none. -/
def Argues (kind : Construct) (argument : Text) : Prop :=
  if takesArgument kind then IsWord argument else argument = []

theorem Argues.solid {argument : Text} (argues : Argues kind argument) :
    ∀ c ∈ argument, isBlank c = false := by
  unfold Argues at argues
  split at argues
  · exact argues.solid
  · rw [argues]
    simp

/-- Behind a marker stand its argument and the text, each behind blanks. -/
theorem tagLine?_eq_some {line : TagLine} (found : tagLine? kind lead text = some line) :
    line.lead = lead ∧ Argues kind line.argument ∧ ∃ gap blanks,
      text = gap ++ (line.argument ++ (blanks ++ line.contents)) ∧
        Indents gap ∧ Indents blanks := by
  unfold tagLine? at found
  dsimp only at found
  unfold Argues
  split at found
  · next takes =>
    split at found
    · cases found
    · next someChar =>
      cases found
      rw [if_pos takes]
      have solid : ∀ c ∈ (text.dropWhile isIndent).takeWhile (!isBlank ·), isBlank c = false := by
        intro c member
        simpa using all_eq_true.mp all_takeWhile c member
      refine ⟨rfl, ⟨by simpa using someChar, solid⟩, text.takeWhile isIndent,
        ((text.dropWhile isIndent).dropWhile (!isBlank ·)).takeWhile isIndent, ?_,
        indents_takeWhile _, indents_takeWhile _⟩
      simp only [takeWhile_append_dropWhile]
  · next plain =>
    cases found
    rw [if_neg plain]
    exact ⟨rfl, rfl, _, [], by simp [takeWhile_append_dropWhile], indents_takeWhile text,
      forall_mem_nil _⟩

/-- What a line is, told by the token that it is. -/
def Token.Of (line : Text) : Token → Prop
  | .separator same => same = line ∧ ∃ front rest, star? line = some (front, rest) ∧
      rest.dropWhile isIndent = []
  | .header kind first => kind ≠ .code ∧ IsLead first.lead ∧ Argues kind first.argument ∧
      ∃ word text gap blanks, (word, kind) ∈ commands ∧
        line = first.lead ++ ('@' :: word ++ text) ∧
        (∀ c ∈ text.head?, isWordChar c = false) ∧
        text = gap ++ (first.argument ++ (blanks ++ first.contents)) ∧
        Indents gap ∧ Indents blanks
  | .code _ _ _ => False
  | .row same | .link same => same = line
  | .bullet item => ∃ text, item.head = line ∧ IsLead item.lead ∧
      Indents item.indent ∧
      (∃ mark, isBullet mark ∧ item.start = [mark, ' ']) ∧
        item.contents = [text] ∧ line = item.lead ++ (item.indent ++ (item.start ++ text)) ∧
          item.breaking = (lastBreak? text == some [])
  | .text prose => line = prose.lead ++ prose.contents ∧ IsLead prose.lead ∧
      prose.argument = [] ∧ opening prose.contents = .prose

theorem of_header? {body : Text} (isLead : IsLead lead)
    (opened : opening body = .command kind text) (found : header? kind lead text = some token) :
    token.Of (lead ++ body) := by
  unfold header? at found
  split at found
  · cases found
  · next noFence =>
    obtain ⟨header, tagged, rfl⟩ := Option.map_eq_some_iff.mp found
    obtain ⟨rfl, argues, gap, blanks, split, inside, behind⟩ := tagLine?_eq_some tagged
    obtain ⟨rest, rfl, known, rfl⟩ := opening_eq_iff.mp opened
    refine ⟨noFence, isLead, argues, _, _, gap, blanks, known, ?_, ?_, split, inside, behind⟩
    · rw [cons_append, takeWhile_append_dropWhile]
    · intro c first
      have stops := List.head?_dropWhile_not isWordChar rest
      rw [first] at stops
      exact stops

theorem of_bullet {line : Text} {mark : Char} (star : star? line = some (front, rest))
    (opened : opening (rest.dropWhile isIndent) = .bullet mark text) :
    (Token.bullet
      { breaking := lastBreak? text == some [], head := line, lead := front ++ rest.take 1
        indent := (rest.drop 1).takeWhile isIndent, start := [mark, ' '], contents := [text] }).Of
      line := by
  obtain ⟨body, marks⟩ := opening_eq_iff.mp opened
  have same := dropWhile_drop_of_star? star
  have blank := head_of_star? star
  cases rest with
  | nil => cases body
  | cons c rest =>
    refine ⟨text, rfl, ?_, all_eq_true.mp all_takeWhile, ⟨mark, marks, rfl⟩, rfl, ?_, rfl⟩
    · exact isLead_of_star? star (by simpa [Indents] using blank) (cons_ne_nil _ _)
    · have inner : rest.takeWhile isIndent ++ mark :: ' ' :: text = rest := by
        rw [← body, ← same, drop_one, tail_cons, takeWhile_append_dropWhile]
      simp only [drop_one, tail_cons]
      rw [star?_split star, append_assoc, cons_append, cons_append, nil_append, inner]
      rfl

theorem Token.of_line? {line : Text} (found : line? line = some token) : token.Of line := by
  unfold line? at found
  split at found
  · cases found
  · next front rest star =>
    dsimp only at found
    have ofLead : opening (rest.dropWhile isIndent) ≠ .nothing →
        line = front ++ rest.takeWhile isIndent ++ rest.dropWhile isIndent ∧
          IsLead (front ++ rest.takeWhile isIndent) := by
      intro opened
      refine isLead_of_text star fun empty => opened ?_
      rw [empty]
      rfl
    split at found
    · next opened =>
      cases found
      exact ⟨rfl, front, rest, star, opening_eq_iff.mp opened⟩
    · next opened =>
      obtain ⟨whole, isLead⟩ := ofLead (by rw [opened]; exact nofun)
      rw [whole]
      exact of_header? isLead opened found
    · cases found
      exact Eq.refl line
    · cases found
      exact Eq.refl line
    · next opened =>
      cases found
      exact of_bullet star opened
    · next opened =>
      cases found
      obtain ⟨whole, isLead⟩ := ofLead (by rw [opened]; exact nofun)
      exact ⟨whole, isLead, rfl, opened⟩
    · cases found
    · cases found

/-! ## Tokens of elements -/

def tokensOf (taken : List Lexeme) : List Token := taken.map Lexeme.token

theorem exists_single (tokens : tokensOf taken = [token]) :
    ∃ first, taken = [first] ∧ first.token = token := by
  obtain ⟨first, rest, rfl, same, nothing⟩ := map_eq_cons_iff.mp tokens
  exact ⟨first, by rw [map_eq_nil_iff.mp nothing], same⟩

def textOf (taken : List Lexeme) : Text := unlines (taken.flatMap Lexeme.source)

theorem textOf_append (first second : List Lexeme) :
    textOf (first ++ second) = textOf first ++ textOf second := by
  rw [textOf, flatMap_append, unlines_append]
  rfl

inductive EntryOf (taken : List Lexeme) : Text × RunEntry → Prop
  | parameter {kind : Construct} {header : TagLine} {more : List TagLine}
      (parameterKind : kind.isParameter)
      (tokens : tokensOf taken = .header kind header :: more.map .text) :
      EntryOf taken (textOf taken, .parameter ⟨kind, header :: more⟩)
  | separator {first : Text} {rest : List Text}
      (tokens : tokensOf taken = (first :: rest).map .separator) :
      EntryOf taken (textOf taken, .separator (firstLine (textOf taken)))

inductive ItemOf (taken : List Lexeme) : ListItem → Prop
  | item {start : ListItem} {more : List TagLine}
      (tokens : tokensOf taken = .bullet start :: more.map .text) :
      ItemOf taken { start with contents := start.contents ++ more.map (·.contents) }

theorem ofLines_ne_parameters (kind : Construct) (lines : List TagLine) (entries : List RunEntry) :
    ofLines kind lines ≠ .parameters entries := by
  unfold ofLines
  split <;> exact nofun

/-- An element of a body and what it was taken from. -/
inductive ElementOf (taken : List Lexeme) : Piece → Prop
  | separator {first : Text} {rest : List Text}
      (tokens : tokensOf taken = (first :: rest).map .separator) :
      ElementOf taken (.plain (textOf taken) (.separator (firstLine (textOf taken))))
  | marked {kind : Construct} {header : TagLine} {more : List TagLine} (member : kind ∈ markedKinds)
      (tokens : tokensOf taken = .header kind header :: more.map .text) :
      ElementOf taken (.plain (textOf taken) (.paragraph (ofLines kind (header :: more))))
  | run {groups : List (List Lexeme)} {entries : List (Text × RunEntry)}
      (whole : taken = groups.flatten) (each : Forall₂ EntryOf groups entries) :
      ElementOf taken (.run (textOf taken) entries)
  | code {header : TagLine} {body : List (Option Text)} {close : Text}
      (tokens : tokensOf taken = [.code header body close]) :
      ElementOf taken (.plain (textOf taken) (.paragraph (.code header body close)))
  | reference {kind : Construct} {line : TagLine} (member : kind ∈ referenceKinds)
      (tokens : tokensOf taken = [.header kind line]) :
      ElementOf taken (.plain (textOf taken) (.paragraph (.reference kind line)))
  | table {first : Text} {rest : List Text}
      (tokens : tokensOf taken = (first :: rest).map .row) :
      ElementOf taken (.plain (textOf taken) (.paragraph (.verbatim .table (textOf taken))))
  | link {line : Text} (tokens : tokensOf taken = [.link line]) :
      ElementOf taken (.plain (textOf taken) (.paragraph (.verbatim .referenceLink (textOf taken))))
  | items {groups : List (List Lexeme)} {items : List ListItem} (someItem : items ≠ [])
      (whole : taken = groups.flatten) (each : Forall₂ ItemOf groups items) :
      ElementOf taken (.plain (textOf taken) (.paragraph (.listItems items)))
  | details {lines : List TagLine} (someLine : lines ≠ [])
      (tokens : tokensOf taken = lines.map .text) :
      ElementOf taken (.plain (textOf taken) (.paragraph (.contiguous .details lines)))

/-- What is taken falls into groups, one for each value. -/
def Grouped {γ : Type} (related : List Lexeme → γ → Prop) (taken : List Lexeme) (values : List γ) :
    Prop :=
  ∃ groups : List (List Lexeme), taken = groups.flatten ∧ Forall₂ related groups values

section Grouping

variable {γ : Type} {related : List Lexeme → γ → Prop}

theorem adds_grouped : Taking.Adds (Grouped related) where
  nil := ⟨[], rfl, .nil⟩
  append := by
    rintro _ _ _ _ ⟨first, rfl, each⟩ ⟨second, rfl, eachLater⟩
    exact ⟨first ++ second, flatten_append.symm, rel_append each eachLater⟩

theorem grouped_singleton {value : γ} (one : related taken value) : Grouped related taken [value] :=
  ⟨[taken], by simp, .cons one .nil⟩

end Grouping

/-- What is taken are tokens of one form, each with its values. -/
def Spelled {ι γ : Type} (token : ι → Token) (value : ι → List γ) (taken : List Lexeme)
    (values : List γ) : Prop :=
  ∃ items : List ι, tokensOf taken = items.map token ∧ values = items.flatMap value

section Spelling

variable {ι γ : Type} {token : ι → Token} {value : ι → List γ}

theorem adds_spelled : Taking.Adds (Spelled token value) where
  nil := ⟨[], rfl, rfl⟩
  append := by
    rintro taken more _ _ ⟨first, tokens, rfl⟩ ⟨second, tokensLater, rfl⟩
    refine ⟨first ++ second, ?_, flatMap_append.symm⟩
    rw [tokensOf, map_append, map_append, ← tokens, ← tokensLater]
    rfl

theorem gives_one {value? : Token → Option (List γ)}
    (only : ∀ {other values}, value? other = some values →
      ∃ item, other = token item ∧ values = value item) :
    Taking.Gives (takeOne fun lexeme : Lexeme => value? lexeme.token) fun taken values =>
      ∃ item, tokensOf taken = [token item] ∧ values = value item := by
  refine Taking.gives_takeOne fun {lexeme values} found => ?_
  obtain ⟨item, same, rfl⟩ := only found
  exact ⟨item, by rw [tokensOf, map_singleton, same], rfl⟩

theorem Spelled.of_one {values : List γ}
    (one : ∃ item, tokensOf taken = [token item] ∧ values = value item) :
    Spelled token value taken values := by
  obtain ⟨item, tokens, rfl⟩ := one
  exact ⟨[item], tokens, by simp⟩

/-- A repetition takes at least one token of the form. -/
theorem gives_takeSome_spelled {taking : Taking Lexeme γ} (gives : taking.Gives (Spelled token value))
    (shortens : taking.Shortens) : (takeSome taking).Gives fun taken values =>
      ∃ first rest, tokensOf taken = (first :: rest).map token ∧
        values = (first :: rest).flatMap value := by
  refine ((gives.takeSome adds_spelled shortens).and shortens.takeSome).mono ?_
  rintro taken values ⟨⟨items, tokens, rfl⟩, someToken⟩
  cases items with
  | nil => exact absurd (map_eq_nil_iff.mp tokens) someToken
  | cons first rest => exact ⟨first, rest, tokens, rfl⟩

end Spelling

theorem gives_markedLine (kind : Construct) : (markedLine kind).Gives fun taken lines =>
    ∃ line, tokensOf taken = [.header kind line] ∧ lines = [line] := by
  refine gives_one fun {token lines} found => ?_
  unfold headerLine? at found
  split at found
  · next line =>
    split at found
    · next same =>
      cases found
      exact ⟨line, by rw [same], rfl⟩
    · cases found
  · cases found

theorem gives_proseLine {γ : Type} (make : TagLine → γ) :
    (proseLine make).Gives (Spelled .text fun line => [make line]) := by
  refine Taking.Gives.mono (gives_one fun {token values} found => ?_) Spelled.of_one
  unfold textValue? at found
  split at found
  · cases found
    exact ⟨_, rfl, rfl⟩
  · cases found

theorem gives_marked (kind : Construct) : (marked kind).Gives fun taken lines =>
    ∃ header more, tokensOf taken = .header kind header :: more.map .text ∧
      lines = header :: more := by
  have prose := (gives_proseLine id).takeMany adds_spelled (shortens_takeOne _)
  refine (Taking.gives_both (gives_markedLine kind) prose).mono ?_
  rintro _ _ ⟨front, back, _, _, rfl, rfl, ⟨header, first, rfl⟩, more, later, rfl⟩
  refine ⟨header, more, ?_, ?_⟩
  · rw [tokensOf, map_append]
    exact congrArg₂ _ first later
  · simp

theorem gives_separatorLines : separatorLines.Gives fun taken _ =>
    ∃ first rest, tokensOf taken = (first :: rest).map .separator := by
  have one : Taking.Gives (takeOne fun lexeme : Lexeme => separatorValue? id lexeme.token)
      (Spelled .separator fun line => line ++ ['\n']) := by
    refine Taking.Gives.mono (gives_one fun {token values} found => ?_) Spelled.of_one
    unfold separatorValue? at found
    split at found
    · cases found
      exact ⟨_, rfl, rfl⟩
    · cases found
  refine (gives_takeSome_spelled one (shortens_takeOne _)).mono ?_
  rintro taken values ⟨first, rest, tokens, _⟩
  exact ⟨first, rest, tokens⟩

theorem gives_parameterOf (parameterKind : kind.isParameter) :
    (parameterOf kind).Gives (Grouped EntryOf) := by
  refine Taking.Gives.takeText ((gives_marked kind).mono ?_)
  rintro taken lines ⟨header, more, tokens, rfl⟩
  exact grouped_singleton (.parameter parameterKind tokens)

theorem gives_parameter : parameter.Gives (Grouped EntryOf) :=
  (gives_parameterOf rfl).or ((gives_parameterOf rfl).or Taking.gives_nothing)

theorem gives_innerSeparator : innerSeparator.Gives (Grouped EntryOf) := by
  refine Taking.Gives.takeText (gives_separatorLines.mono ?_)
  rintro taken _ ⟨first, rest, tokens⟩
  exact grouped_singleton (.separator tokens)

theorem gives_parameterRun : parameterRun.Gives (Grouped EntryOf) := by
  have parameters := gives_parameter.takeSome adds_grouped shortens_parameter
  refine Taking.gives_takeEach adds_grouped (forall_mem_cons.mpr
    ⟨parameters, forall_mem_singleton.mpr (Taking.Gives.takeMany ?_ adds_grouped
      shortens_separated)⟩)
  exact Taking.gives_takeEach adds_grouped (forall_mem_cons.mpr
    ⟨gives_innerSeparator, forall_mem_singleton.mpr parameters⟩)

theorem gives_bulletItem {breaking : Bool} {test : ListItem → Bool}
    (tests : ∀ item, test item → item.breaking = breaking) :
    (bulletItem breaking test).Gives (Grouped ItemOf) := by
  have start : Taking.Gives (takeOne fun lexeme : Lexeme => startValue? test lexeme.token)
      fun taken values => ∃ item, item.breaking = breaking ∧
        tokensOf taken = [.bullet item] ∧ values = [.start { item with breaking := false }] := by
    refine Taking.gives_takeOne fun {lexeme values} found => ?_
    unfold startValue? at found
    split at found
    · next item same =>
      split at found
      · next tested =>
        cases found
        exact ⟨item, tests item tested, by rw [tokensOf, map_singleton, same], rfl⟩
      · cases found
    · cases found
  have prose := (gives_proseLine fun line => ItemPart.line line.contents).takeMany adds_spelled
    (shortens_takeOne _)
  refine Taking.Gives.takeText ((Taking.gives_both start prose).mono ?_)
  rintro _ _ ⟨front, back, _, _, rfl, rfl, ⟨item, rfl, first, rfl⟩, more, later, rfl⟩
  have tokens : tokensOf (front ++ back) = .bullet item :: more.map .text := by
    rw [tokensOf, map_append]
    exact congrArg₂ _ first later
  rw [singleton_append, itemOfParts_start]
  exact grouped_singleton (.item tokens)

/-- An item that breaks is taken as one, and any other as a plain one. -/
theorem anyBulletItem_eq : anyBulletItem =
    takeFirst [bulletItem true (·.breaking), bulletItem false (!·.breaking)] := by
  funext tokens
  rcases tokens with _ | ⟨⟨source, token⟩, rest⟩
  · rfl
  cases token with
  | bullet item =>
    obtain ⟨breaking⟩ := item
    cases breaking <;> rfl
  | _ => rfl

theorem gives_anyBulletItem : anyBulletItem.Gives (Grouped ItemOf) := by
  rw [anyBulletItem_eq]
  refine (gives_bulletItem fun item breaks => breaks).or
    ((gives_bulletItem fun item plain => ?_).or Taking.gives_nothing)
  simpa using plain

theorem gives_code {values : List CodePart} (found : codeParts? token = some values) :
    ∃ parts : TagLine × List (Option Text) × Text,
      token = .code parts.1 parts.2.1 parts.2.2 ∧
        values = .header parts.1 :: parts.2.1.map .line ++ [.close parts.2.2] := by
  unfold codeParts? at found
  split at found
  · cases found
    exact ⟨⟨_, _, _⟩, rfl, rfl⟩
  · cases found

theorem exists_of_rowText? {text : Text} (found : rowText? token = some text) :
    ∃ line, token = .row line ∧ text = line ++ ['\n'] := by
  unfold rowText? at found
  split at found
  · cases found
    exact ⟨_, rfl, rfl⟩
  · cases found

theorem exists_of_linkText? {text : Text} (found : linkText? token = some text) :
    ∃ line, token = .link line ∧ text = line ++ ['\n'] := by
  unfold linkText? at found
  split at found
  · cases found
    exact ⟨_, rfl, rfl⟩
  · cases found

theorem codeOfParts_eq (header : TagLine) (body : List (Option Text)) (close : Text) :
    codeOfParts (.header header :: body.map .line ++ [.close close]) = .code header body close := by
  have inner : (body.map CodePart.line).filterMap CodePart.line? = body := by
    simp [filterMap_map, Function.comp_def, CodePart.line?]
  have noClose : (body.map CodePart.line).filterMap CodePart.close? = [] := by
    simp [filterMap_map, Function.comp_def, CodePart.close?]
  rw [codeOfParts, filterMap_append, filterMap_append, filterMap_append,
    filterMap_cons_none (f := CodePart.line?) rfl, inner,
    filterMap_cons_none (f := CodePart.close?) rfl, noClose]
  simp [CodePart.header?, CodePart.line?, CodePart.close?]

theorem eachElement_of : EachElement (Grouped ElementOf) where
  separators := by
    refine gives_piece (gives_separatorLines.mono ?_)
    rintro taken _ ⟨first, rest, tokens⟩
    exact grouped_singleton (.separator tokens)
  marked := by
    intro kind member
    refine gives_piece ((gives_marked kind).mono ?_)
    rintro taken _ ⟨header, more, tokens, rfl⟩
    exact grouped_singleton (.marked member tokens)
  run := by
    refine Taking.Gives.takeText (gives_parameterRun.mono ?_)
    rintro taken entries ⟨groups, whole, each⟩
    exact grouped_singleton (.run whole each)
  code := by
    refine gives_piece (Taking.Gives.mono (gives_one gives_code) ?_)
    rintro taken _ ⟨⟨header, body, close⟩, tokens, rfl⟩
    rw [codeOfParts_eq]
    exact grouped_singleton (.code tokens)
  references := by
    intro kind member
    refine gives_piece ((gives_markedLine kind).mono ?_)
    rintro taken _ ⟨line, tokens, rfl⟩
    have made : ofLines kind [line] = .reference kind line := by
      have references : ∀ kind ∈ referenceKinds, kind.strategy = .reference := by decide
      rw [ofLines, references kind member]
      rfl
    rw [made]
    exact grouped_singleton (.reference member tokens)
  table := by
    refine gives_piece ((gives_takeSome_spelled (Taking.Gives.mono (gives_one exists_of_rowText?)
      Spelled.of_one) (shortens_takeOne _)).mono ?_)
    rintro taken _ ⟨first, rest, tokens, _⟩
    exact grouped_singleton (.table tokens)
  items := by
    refine gives_piece (((gives_anyBulletItem.takeSome adds_grouped shortens_anyBulletItem).and
      shortens_anyBulletItem.takeSome).mono ?_)
    rintro taken items ⟨⟨groups, rfl, each⟩, someToken⟩
    refine grouped_singleton (.items ?_ rfl each)
    rintro rfl
    cases each
    exact someToken rfl
  link := by
    refine gives_piece (Taking.Gives.mono (gives_one exists_of_linkText?) ?_)
    rintro taken _ ⟨line, tokens, _⟩
    exact grouped_singleton (.link tokens)
  details := by
    refine gives_piece ((gives_takeSome_spelled (gives_proseLine id) (shortens_takeOne _)).mono ?_)
    rintro taken _ ⟨first, rest, tokens, rfl⟩
    rw [← map_eq_flatMap, map_id]
    exact grouped_singleton (.details (cons_ne_nil _ _) tokens)

/-- The elements of a body, each with the tokens that it was taken from. -/
theorem exists_groups {lexemes : List Lexeme} (taken : (takeAll element lexemes).2 = []) :
    ∃ groups : List (List Lexeme), lexemes = groups.flatten ∧
      Forall₂ ElementOf groups (takeAll element lexemes).1 := by
  have runs := shortens_element.runs_takeAll lexemes
  rw [taken] at runs
  obtain ⟨all, whole, groups, rfl, each⟩ := eachElement_of.gives.runs adds_grouped runs
  exact ⟨groups, by rw [whole, append_nil], each⟩

/-! ## Sound lexemes -/

/-- Lexemes that are known and whose lines have no line breaks. -/
structure Sound (taken : List Lexeme) : Prop where
  known : ∀ lexeme ∈ taken, IsToken lexeme.source lexeme.token
  unbroken : Unbroken (taken.flatMap Lexeme.source)

theorem Sound.nil : Sound [] := ⟨by simp, by simp [Unbroken]⟩

theorem Sound.append {first second : List Lexeme} (sound : Sound first) (laterSound : Sound second) :
    Sound (first ++ second) where
  known := fun lexeme member => (mem_append.mp member).elim (sound.known lexeme)
    (laterSound.known lexeme)
  unbroken := by
    rw [flatMap_append]
    exact fun line member => (mem_append.mp member).elim (sound.unbroken line)
      (laterSound.unbroken line)

theorem Sound.line {line : Text} (found : line? line = some token) (unbroken : '\n' ∉ line) :
    Sound [⟨[line], token⟩] where
  known := by
    intro lexeme member
    cases mem_singleton.mp member
    exact .line found
  unbroken := by
    intro other member
    cases mem_singleton.mp member
    exact unbroken

theorem Sound.tail {first : Lexeme} {others : List Lexeme} (sound : Sound (first :: others)) :
    Sound others where
  known := (forall_mem_cons.mp sound.known).2
  unbroken := fun line member => sound.unbroken line (mem_append_right _ member)

/-- The first of some lexemes is a line, unless it is fenced code. -/
theorem Sound.head {first : Lexeme} {others : List Lexeme} (sound : Sound (first :: others))
    (noCode : ∀ header body close, first.token ≠ .code header body close) :
    ∃ line, first.source = [line] ∧ line? line = some first.token ∧ '\n' ∉ line := by
  obtain ⟨line, source, found⟩ := (sound.known first mem_cons_self).exists_line noCode
  refine ⟨line, source, found, sound.unbroken line ?_⟩
  rw [flatMap_cons, source]
  exact mem_append_left _ (mem_singleton_self _)

theorem Sound.of_mem {groups : List (List Lexeme)} (sound : Sound groups.flatten)
    (member : taken ∈ groups) : Sound taken where
  known := fun lexeme inside => sound.known lexeme (mem_flatten.mpr ⟨taken, member, inside⟩)
  unbroken := by
    intro line inside
    obtain ⟨lexeme, among, source⟩ := mem_flatMap.mp inside
    exact sound.unbroken line
      (mem_flatMap.mpr ⟨lexeme, mem_flatten.mpr ⟨taken, member, among⟩, source⟩)

/-- A body between an opening and a closing line. -/
def framed (body : Text) : Text := "/**\n".toList ++ body ++ " */\n".toList

theorem parse_of_sound (sound : Sound taken) {pieces : List Piece}
    (found : takeAll element taken = (pieces, []))
    (limit : byteLength (framed (textOf taken)) ≤ inputLimit) :
    parse (framed (textOf taken)) =
      .ok ⟨"/**\n".toList, pieces.map Piece.item, " */\n".toList⟩ := by
  refine parse_eq_ok_iff.mpr ⟨limit, "/**".toList, taken, " */".toList, ['\n'], ?_, ?_⟩
  · exact
      { opens := by decide
        known := sound.known
        taken := by rw [found]
        closes := by decide
        ends := .inr rfl
        cleanOpening := by decide
        cleanBody := sound.unbroken
        cleanClosing := by decide
        whole := by simp [framed, textOf] }
  · rw [found]
    rfl

/-- What a line is by itself. -/
def lineLexeme (line : Text) : Lexeme := ⟨[line], (line? line).getD (.separator line)⟩

/-- Lines that are tokens by themselves, between an opening and a closing line. -/
theorem parse_of_lines (lines : List Text)
    (known : ∀ line ∈ lines, (line? line).isSome) (unbroken : ∀ line ∈ lines, '\n' ∉ line)
    {pieces : List Piece} (found : takeAll element (lines.map lineLexeme) = (pieces, []))
    (limit : byteLength (framed (unlines lines)) ≤ inputLimit) :
    parse (framed (unlines lines)) =
      .ok ⟨"/**\n".toList, pieces.map Piece.item, " */\n".toList⟩ := by
  have sources : (lines.map lineLexeme).flatMap Lexeme.source = lines := by
    simp [lineLexeme, flatMap_map]
  have sound : Sound (lines.map lineLexeme) := by
    refine ⟨fun lexeme member => ?_, by rwa [sources]⟩
    obtain ⟨line, inside, rfl⟩ := mem_map.mp member
    obtain ⟨token, isToken⟩ := Option.isSome_iff_exists.mp (known line inside)
    rw [lineLexeme, isToken]
    exact .line isToken
  have whole := parse_of_sound sound found
  rw [textOf, sources] at whole
  exact whole limit

/-- The lines of a construct begin with its header. -/
def Headed (kind : Construct) (lines : List TagLine) : Prop :=
  ∃ header more, lines = header :: more ∧ IsLead header.lead ∧ Argues kind header.argument

theorem headed_of_tokens (sound : Sound taken) {header : TagLine} {more : List TagLine}
    (tokens : tokensOf taken = .header kind header :: more.map .text) :
    Headed kind (header :: more) := by
  obtain ⟨first, others, rfl, same, _⟩ := map_eq_cons_iff.mp tokens
  obtain ⟨line, _, found, _⟩ := sound.head (by rw [same]; exact nofun)
  rw [same] at found
  obtain ⟨_, isLead, argues, _⟩ := Token.of_line? found
  exact ⟨header, more, rfl, isLead, argues⟩

/-- An element of a run as it comes from a comment. -/
inductive EntryFits : RunEntry → Prop
  | parameter {kind : Construct} {lines : List TagLine} (parameterKind : kind.isParameter)
      (headed : Headed kind lines) : EntryFits (.parameter ⟨kind, lines⟩)
  | separator {line : Text} (found : line? line = some (.separator line))
      (unbroken : '\n' ∉ line) : EntryFits (.separator (line ++ ['\n']))

/-- The first of some separators, as it comes from a comment. -/
theorem firstLine_separators (sound : Sound taken) {line : Text} {rest : List Text}
    (tokens : tokensOf taken = (line :: rest).map .separator) :
    firstLine (textOf taken) = line ++ ['\n'] ∧ line? line = some (.separator line) ∧
      '\n' ∉ line := by
  obtain ⟨first, others, rfl, same, _⟩ := map_eq_cons_iff.mp tokens
  obtain ⟨_, source, found, unbroken⟩ := sound.head (by rw [same]; exact nofun)
  rw [same] at found
  obtain ⟨rfl, _⟩ := Token.of_line? found
  refine ⟨?_, found, unbroken⟩
  rw [textOf, flatMap_cons, source, singleton_append, unlines_cons, firstLine,
    lines_line _ unbroken]
  rfl

theorem EntryOf.fits {value : Text × RunEntry} (entry : EntryOf taken value)
    (sound : Sound taken) : EntryFits value.2 := by
  cases entry with
  | parameter parameterKind tokens => exact .parameter parameterKind (headed_of_tokens sound tokens)
  | @separator line rest tokens =>
    obtain ⟨topLine, found, unbroken⟩ := firstLine_separators sound tokens
    rw [topLine]
    exact .separator found unbroken

end Reflow.Document.Block
