import Reflow.Proofs.BlockShapes
import Reflow.Proofs.LineRereading

/-!
# Constructs read again

What is written for a construct with a marker, or for a run of parameters, is read again as that
construct alone, with the same lead, the same arguments and the same words. Behind the header every
line begins with a word that opens nothing, so it is read as a line of prose.
-/

namespace Reflow.Document.Block

open Text Layout Reflow.Expr List

/-! ## Words that open nothing -/

theorem isIndent_of_solid {c : Char} (solid : isBlank c = false) : isIndent c = false := by
  rw [← Bool.not_eq_true]
  intro indent
  rw [isBlank_of_isIndent indent] at solid
  cases solid

theorem isWordChar_of_isIndent {c : Char} (indent : isIndent c) : isWordChar c = false := by
  simp only [isIndent, Bool.or_eq_true, beq_iff_eq] at indent
  rcases indent with rfl | rfl <;> rfl

/-- A text without blanks that stands in front of a word and what follows it stands in front of the
word. -/
theorem prefix_of_solid {front word tail : Text} (solid : ∀ c ∈ front, isBlank c = false)
    (blank : ∀ c ∈ tail.head?, isBlank c) (found : front <+: word ++ tail) :
    front <+: word := by
  induction front generalizing word with
  | nil => exact nil_prefix
  | cons c front ih =>
    cases word with
    | nil =>
      cases tail with
      | nil => cases prefix_nil.mp found
      | cons d tail =>
        obtain ⟨rfl, _⟩ := cons_prefix_cons.mp found
        have blankHere := blank c rfl
        rw [solid c mem_cons_self] at blankHere
        cases blankHere
    | cons d word =>
      obtain ⟨rfl, later⟩ := cons_prefix_cons.mp found
      exact cons_prefix_cons.mpr
        ⟨rfl, ih (forall_mem_cons.mp solid).2 later⟩

/-- A line that begins with a word that opens nothing is prose. -/
theorem opening_joinWords {word : Text} (isWord : IsWord word)
    (free : opensConstruct word = false) (rest : List Text) :
    opening (joinWords (word :: rest)) = .prose := by
  obtain ⟨tail, whole, space⟩ := joinWords_cons word rest
  obtain ⟨c, chars, rfl⟩ := exists_cons_of_ne_nil isWord.nonempty
  simp only [opensConstruct, Bool.or_eq_false_iff] at free
  obtain ⟨⟨⟨noMarker, noBar⟩, noBracket⟩, noBullet⟩ := free
  rw [whole, opening_eq_iff]
  refine ⟨cons_ne_nil _ _, ?_⟩
  have marker : markers.any (marks · (c :: chars ++ tail)) = false := by
    rw [any_eq_false] at noMarker ⊢
    intro marker member
    have blankFree : ∀ marker ∈ markers, marker.toList.any isBlank = false := by decide
    intro marked
    apply noMarker marker member
    have found : marker.toList <+: c :: chars ++ tail := by
      unfold marks at marked
      split at marked
      · next more stripped =>
        rw [stripFront?_eq_some.mp stripped]
        exact prefix_append _ _
      · cases marked
    rw [List.isPrefixOf_iff_prefix]
    refine prefix_of_solid (fun d inside => ?_) (fun d first => ?_) found
    · exact eq_false_of_ne_true (any_eq_false.mp (blankFree marker member) d inside)
    · rw [space d first]
      rfl
  have label : startsLabel (c :: chars ++ tail) = false := by
    unfold startsLabel
    split
    · next same =>
      cases same
      cases noBracket
    · rfl
  have bullet : startsBullet (c :: chars ++ tail) = false := by
    unfold startsBullet
    split
    · next d behind same =>
      cases chars with
      | nil =>
        obtain ⟨rfl, _⟩ := List.cons.inj same
        simpa [opensBullet, isBullet] using noBullet
      | cons e chars =>
        obtain ⟨_, behindSame⟩ := List.cons.inj same
        obtain ⟨rfl, _⟩ := List.cons.inj behindSame
        have solid := isWord.solid ' ' (by simp)
        cases solid
    · rfl
  rw [opens, marker, label, bullet]
  simpa using noBar

/-! ## Headers -/

/-- The constructs whose header is written with a marker, possibly an argument, and text. -/
def taggedKinds : List Construct :=
  [.brief, .returns, .param, .tparam, .note, .warning, .throws] ++ referenceKinds

/-- An argument behind a gap, or nothing. -/
def argumentText (gap argument : Text) : Text :=
  if argument.isEmpty then [] else gap ++ argument

/-- The line of a header: its lead, its marker, an argument behind a gap, and what follows. -/
def headerText (kind : Construct) (line : TagLine) (gap rest : Text) : Text :=
  line.lead ++ (kind.marker.toList ++ (argumentText gap line.argument ++ rest))

variable {kind : Construct} {blanks : Text} {filled : List (List Text)}
  {line header : TagLine} {taken rest : List Lexeme} {more : List TagLine}

theorem opening_marker (member : kind ∈ taggedKinds) {rest : Text}
    (ends : ∀ c ∈ rest.head?, isWordChar c = false) :
    opening (kind.marker.toList ++ rest) = .command kind rest := by
  have spelled : ∀ kind ∈ taggedKinds, kind.marker.toList = '@' :: kind.marker.toList.tail ∧
      (kind.marker.toList.tail, kind) ∈ commands ∧
        kind.marker.toList.tail.all isWordChar := by decide
  obtain ⟨atSign, known, wordChars⟩ := spelled kind member
  obtain ⟨taken, dropped⟩ := takeWhile_stop (all_eq_true.mp wordChars) ends
  rw [atSign, opening_eq_iff]
  refine ⟨kind.marker.toList.tail ++ rest, rfl, ?_, dropped.symm⟩
  rw [taken]
  exact known

/-- Blanks come first if anything does. -/
theorem head_indent {contents : Text} (indents : Indents blanks)
    (apart : blanks = [] → contents = []) {c : Char} (first : c ∈ (blanks ++ contents).head?) :
    isIndent c := by
  cases blanks with
  | nil =>
    rw [apart rfl] at first
    cases first
  | cons d blanks =>
    cases first
    exact indents _ mem_cons_self

section Headers

variable {kind : Construct} {line : TagLine} {gap blanks contents : Text}
  (gapIndents : Indents gap) (someGap : gap ≠ [])
  (indents : Indents blanks) (apart : blanks = [] → contents = [])
  (solid : ∀ c ∈ contents.head?, isBlank c = false)

include gapIndents indents apart solid

/-- An argument and a text behind blanks are told apart again. -/
theorem tagLine?_again (argues : Argues kind line.argument) :
    tagLine? kind line.lead (argumentText gap line.argument ++ (blanks ++ contents)) =
      some { line with contents } := by
  obtain ⟨_, text⟩ := takeWhile_stop indents fun c first => isIndent_of_solid (solid c first)
  unfold Argues at argues
  unfold tagLine? argumentText
  split at argues
  · next takes =>
    have someChar : line.argument.isEmpty = false := by simpa using argues.nonempty
    have solidArgument : ∀ c ∈ (line.argument ++ (blanks ++ contents)).head?,
        isIndent c = false := by
      intro c first
      obtain ⟨d, chars, same⟩ := exists_cons_of_ne_nil argues.nonempty
      rw [same] at first
      cases first
      exact isIndent_of_solid (argues.solid c (same ▸ mem_cons_self))
    have ends : ∀ c ∈ (blanks ++ contents).head?, (!isBlank c) = false := by
      intro c first
      rw [isBlank_of_isIndent (head_indent indents apart first)]
      rfl
    obtain ⟨_, front⟩ := takeWhile_stop gapIndents solidArgument
    have word : ∀ c ∈ line.argument, (!isBlank c) = true := by
      intro c member
      rw [argues.solid c member]
      rfl
    obtain ⟨argument, behind⟩ := takeWhile_stop word ends
    rw [someChar, if_pos takes]
    simp only [Bool.false_eq_true, if_false, append_assoc, front, argument, behind, text, someChar]
  · next plain =>
    rw [argues, if_neg plain]
    simp only [isEmpty_nil, if_true, nil_append, text]

include someGap

theorem line?_header (member : kind ∈ taggedKinds) (isLead : IsLead line.lead)
    (argues : Argues kind line.argument) :
    line? (headerText kind line gap (blanks ++ contents)) =
      some (.header kind { line with contents }) := by
  have atSign : ∀ kind ∈ taggedKinds, kind.marker.toList.head? = some '@' ∧ kind ≠ .code := by
    decide
  obtain ⟨first, noFence⟩ := atSign kind member
  have solid_marker : ∀ c ∈ (kind.marker.toList ++
      (argumentText gap line.argument ++ (blanks ++ contents))).head?, isIndent c = false := by
    intro c found
    rw [List.head?_append, first] at found
    cases found
    rfl
  have ends : ∀ c ∈ (argumentText gap line.argument ++ (blanks ++ contents)).head?,
      isWordChar c = false := by
    intro c found
    unfold argumentText at found
    split at found
    · exact isWordChar_of_isIndent (head_indent indents apart found)
    · obtain ⟨d, gap, rfl⟩ := exists_cons_of_ne_nil someGap
      cases found
      exact isWordChar_of_isIndent (gapIndents _ mem_cons_self)
  rw [headerText, line?_command isLead solid_marker (opening_marker member ends), header?,
    if_neg noFence, tagLine?_again gapIndents indents apart solid argues]
  rfl

end Headers

/-! ## Lines of prose -/

def proseOf (lead : Text) (given : List Text) : TagLine :=
  { lead, contents := joinWords given }

def proseLexemes (lead : Text) (filled : List (List Text)) : List Lexeme :=
  filled.map fun given => ⟨[lead ++ joinWords given], .text (proseOf lead given)⟩

theorem tokensOf_proseLexemes (lead : Text) (filled : List (List Text)) :
    tokensOf (proseLexemes lead filled) = (filled.map (proseOf lead)).map .text := by
  rw [tokensOf, proseLexemes, map_map, map_map]
  rfl

theorem textOf_proseLexemes (lead : Text) (filled : List (List Text)) :
    textOf (proseLexemes lead filled) = leadLines lead (filled.map joinWords) := by
  rw [textOf, proseLexemes, unlines, leadLines, flatMap_map, flatMap_map, flatMap_assoc]
  simp

theorem allWords_proseOf {lead : Text} (isWord : ∀ given ∈ filled, ∀ word ∈ given, IsWord word) :
    allWords (filled.map (proseOf lead)) = filled.flatten := by
  rw [allWords, flatMap_map, flatMap_def]
  change (filled.map fun given => words (joinWords given)).flatten = _
  rw [map_congr_left fun given member => words_joinWords (isWord given member), map_id']

/-- Lines of words that open nothing are read as prose. -/
theorem sound_proseLexemes {lead : Text} (isLead : IsLead lead)
    (isWord : ∀ given ∈ filled, ∀ word ∈ given, IsWord word)
    (prose : ∀ given ∈ filled, opening (joinWords given) = .prose) :
    Sound (proseLexemes lead filled) := by
  induction filled with
  | nil => exact .nil
  | cons given filled ih =>
    obtain ⟨isWord, isWordLater⟩ := forall_mem_cons.mp isWord
    obtain ⟨prose, proseLater⟩ := forall_mem_cons.mp prose
    refine Sound.append (Sound.line (line?_prose isLead ?_ prose) ?_) (ih isWordLater proseLater)
    · exact fun c first => isIndent_of_solid (solid_joinWords isWord c first)
    · exact not_mem_append isLead.unbroken (unbroken_joinWords isWord)

/-! ## Written constructs -/

theorem unbroken_headerText {gap : Text} {given : List Text}
    (member : kind ∈ taggedKinds) (isLead : IsLead line.lead) (argues : Argues kind line.argument)
    (gapIndents : Indents gap) (indents : Indents blanks) (isWord : ∀ word ∈ given, IsWord word) :
    '\n' ∉ headerText kind line gap (blanks ++ joinWords given) := by
  have marker : ∀ kind ∈ taggedKinds, '\n' ∉ kind.marker.toList := by decide
  have argument : '\n' ∉ argumentText gap line.argument := by
    unfold argumentText
    split
    · exact not_mem_nil
    · intro found
      rcases mem_append.mp found with early | late
      · cases gapIndents _ early
      · cases argues.solid _ late
  have blank : '\n' ∉ blanks := fun found => nomatch indents _ found
  simp only [headerText, mem_append, not_or]
  exact ⟨isLead.unbroken, marker kind member, argument, blank, unbroken_joinWords isWord⟩

/-- The last character of a header without words is not blank. -/
theorem last_headerText (gap : Text) (member : kind ∈ taggedKinds)
    (argues : Argues kind line.argument) :
    ∀ c ∈ (headerText kind line gap []).getLast?, isBlank c = false := by
  have marker : ∀ kind ∈ taggedKinds, kind.marker.toList ≠ [] ∧
      kind.marker.toList.any isBlank = false := by decide
  obtain ⟨someChar, solid⟩ := marker kind member
  intro c last
  rw [headerText, append_nil, argumentText] at last
  split at last
  · rw [append_nil, List.getLast?_append_of_ne_nil _ someChar] at last
    exact eq_false_of_ne_true (any_eq_false.mp solid c (mem_of_getLast? last))
  · next someArgument =>
    rw [List.isEmpty_iff] at someArgument
    rw [List.getLast?_append_of_ne_nil _ (by simp [someArgument]),
      List.getLast?_append_of_ne_nil _ (by simp [someArgument]),
      List.getLast?_append_of_ne_nil _ someArgument] at last
    exact argues.solid c (mem_of_getLast? last)

/-- Blanks behind a header without words are trimmed. -/
theorem trimEnd_headerText (gap : Text) (member : kind ∈ taggedKinds)
    (argues : Argues kind line.argument) (indents : Indents blanks) :
    trimEnd (headerText kind line gap blanks) = headerText kind line gap [] := by
  have front : headerText kind line gap blanks = headerText kind line gap [] ++ blanks := by
    simp [headerText]
  rw [front, trimEnd, dropEndWhile_append fun c inside => isBlank_of_isIndent (indents c inside)]
  exact dropEndWhile_eq_self (last_headerText gap member argues)

/-- Words behind spaces are joined words behind a space, if there are any. -/
theorem spacedWords_eq (given : List Text) :
    ∃ blanks, spacedWords given = blanks ++ joinWords given ∧
      Indents blanks ∧ (blanks = [] → given = []) := by
  cases given with
  | nil => exact ⟨[], rfl, forall_mem_nil _, fun _ => rfl⟩
  | cons word rest =>
    refine ⟨[' '], ?_, indents_space, by simp⟩
    induction rest generalizing word with
    | nil => simp [spacedWords, joinWords]
    | cons next rest ih =>
      have later := ih next
      rw [spacedWords] at later ⊢
      rw [flatMap_cons, later, joinWords_cons_cons]
      simp

/-- The last character of a header with words is not blank. -/
theorem last_headerText_spaced (gap : Text) (member : kind ∈ taggedKinds)
    (argues : Argues kind line.argument) {held : List Text} (isWord : ∀ word ∈ held, IsWord word) :
    ∀ c ∈ (headerText kind line gap (spacedWords held)).getLast?, isBlank c = false := by
  cases held with
  | nil => exact last_headerText gap member argues
  | cons word rest =>
    obtain ⟨blanks, spaced, _⟩ := spacedWords_eq (word :: rest)
    have someChar := joinWords_ne_nil (isWord word mem_cons_self) rest
    have split : headerText kind line gap (spacedWords (word :: rest)) =
        headerText kind line gap blanks ++ joinWords (word :: rest) := by
      rw [spaced]
      simp [headerText]
    rw [split, List.getLast?_append_of_ne_nil _ someChar]
    exact last_joinWords isWord

structure SameLines (lines again : List TagLine) : Prop where
  lead : leadOf again = leadOf lines
  argument : again.head?.map (·.argument) = lines.head?.map (·.argument)
  words : allWords again = allWords lines

/-- Lexemes that are read as a construct with the lead and the argument of a line and some words. -/
structure Rereads (kind : Construct) (line : TagLine) (given : List Text)
    (taken : List Lexeme) (again : List TagLine) : Prop where
  sound : Sound taken
  tokens : ∃ header more, again = header :: more ∧ header.lead = line.lead ∧
    header.argument = line.argument ∧ tokensOf taken = .header kind header :: more.map .text
  words : allWords again = given

section Constructs

variable {kind : Construct} {line : TagLine} {gap : Text} (member : kind ∈ taggedKinds)
  (isLead : IsLead line.lead) (argues : Argues kind line.argument)
  (gapIndents : Indents gap) (someGap : gap ≠ [])

include member isLead argues gapIndents someGap

/-- A header with words, then lines of words that open nothing. -/
theorem rereads_lines {first : List Text} {deeper : Text}
    (indents : Indents blanks) (apart : blanks = [] → first = [])
    (isLeadDeeper : IsLead deeper) (isWordFirst : ∀ word ∈ first, IsWord word)
    (isWord : ∀ given ∈ filled, ∀ word ∈ given, IsWord word)
    (free : ∀ given ∈ filled, ∃ word rest, given = word :: rest ∧ opensConstruct word = false) :
    ∃ taken again, Rereads kind line (first ++ filled.flatten) taken again ∧
      textOf taken = headerText kind line gap (blanks ++ joinWords first) ++ ['\n'] ++
        leadLines deeper (filled.map joinWords) := by
  have apartText : blanks = [] → joinWords first = [] := fun noneLeft => by
    rw [apart noneLeft]
    rfl
  have read := line?_header gapIndents someGap indents apartText (solid_joinWords isWordFirst)
    member isLead argues
  have unbroken := unbroken_headerText member isLead argues gapIndents indents isWordFirst
  refine ⟨⟨[headerText kind line gap (blanks ++ joinWords first)],
      .header kind { line with contents := joinWords first }⟩ :: proseLexemes deeper filled,
    { line with contents := joinWords first } :: filled.map (proseOf deeper),
    ⟨?_, ⟨_, _, rfl, rfl, rfl, ?_⟩, ?_⟩, ?_⟩
  · refine Sound.append (.line read unbroken) (sound_proseLexemes isLeadDeeper isWord ?_)
    intro given inside
    obtain ⟨word, rest, rfl, quiet⟩ := free given inside
    exact opening_joinWords (isWord _ inside word mem_cons_self) quiet rest
  · rw [tokensOf, map_cons]
    exact congrArg _ (tokensOf_proseLexemes deeper filled)
  · rw [allWords, flatMap_cons, words_joinWords isWordFirst]
    exact congrArg _ (allWords_proseOf isWord)
  · have later := textOf_proseLexemes deeper filled
    rw [textOf] at later ⊢
    rw [flatMap_cons, unlines_append, later, unlines_cons]
    simp

theorem rereads_header : ∃ taken again, Rereads kind line [] taken again ∧
    textOf taken = headerText kind line gap [] ++ ['\n'] := by
  have noBlank : ∀ c ∈ ([] : Text), isIndent c := nofun
  have noWord : ∀ word ∈ ([] : List Text), IsWord word := nofun
  have noLine : ∀ given ∈ ([] : List (List Text)), ∀ word ∈ given, IsWord word := nofun
  obtain ⟨taken, again, rereads, written⟩ := rereads_lines member isLead argues gapIndents someGap
    noBlank (fun _ => rfl) isLead noWord noLine nofun
  refine ⟨taken, again, rereads, ?_⟩
  rw [written]
  exact append_nil _

theorem rereads_contiguous {ctx : Context} (sticky : ctx.sticky = opensConstruct)
    (indents : Indents blanks) (someBlank : blanks ≠ []) (text : Text) :
    ∃ taken again, Rereads kind line (words text) taken again ∧
      textOf taken = contiguous ctx line.lead
        (kind.marker.toList ++ (argumentText gap line.argument ++ blanks)) text := by
  obtain ⟨wrap, deeper, same, deeperIndents, layout⟩ := contiguous_eq ctx line.lead
    (kind.marker.toList ++ (argumentText gap line.argument ++ blanks)) text
  have whole := wrap.flatten_fillWords (words text)
  have isWord := wrap.isWord_of_mem_lines text
  have free := wrap.begin_of_mem_tail_fillWords (words text)
  rw [same, sticky] at free
  rw [layout]
  cases filled : wrap.fillWords (words text) with
  | nil =>
    rw [filled] at whole
    obtain ⟨taken, again, rereads, written⟩ :=
      rereads_header member isLead argues gapIndents someGap
    refine ⟨taken, again, whole ▸ rereads, ?_⟩
    have trimmed := trimEnd_headerText gap member argues indents
    rw [headerText] at trimmed
    rw [written]
    exact congrArg (· ++ ['\n']) trimmed.symm
  | cons first rest =>
    rw [filled] at whole isWord free
    obtain ⟨taken, again, rereads, written⟩ := rereads_lines member isLead argues gapIndents
      someGap indents (fun empty => absurd empty someBlank) (isLead.append deeperIndents)
      (isWord first mem_cons_self)
      (forall_mem_cons.mp isWord).2 free
    refine ⟨taken, again, whole ▸ rereads, ?_⟩
    rw [written]
    simp [headerText, hanging]

/-- Text below a header, which holds the words that may not begin a line. -/
theorem rereads_breaking {ctx : Context} (sticky : ctx.sticky = opensConstruct) (text : Text) :
    ∃ taken again, Rereads kind line (words text) taken again ∧
      textOf taken = breaking ctx
        (headerText kind line gap (spacedWords (ctx.splitStickyLead text).1)) (line.lead ++ ['\t'])
        (ctx.splitStickyLead text).2 := by
  have isWord : ∀ word ∈ words text, IsWord word := fun word inside => isWord_of_mem_words inside
  have cut : (words text).takeWhile ctx.sticky ++ (words text).dropWhile ctx.sticky = words text :=
    takeWhile_append_dropWhile
  have firstFree := dropWhile_refuses ctx.sticky (words text)
  unfold Context.splitStickyLead
  dsimp only
  generalize (words text).takeWhile ctx.sticky = held at cut
  generalize (words text).dropWhile ctx.sticky = rest at cut firstFree
  rw [← cut] at isWord
  have isWordHeld : ∀ word ∈ held, IsWord word :=
    fun word inside => isWord word (mem_append_left _ inside)
  have isWordRest : ∀ word ∈ rest, IsWord word :=
    fun word inside => isWord word (mem_append_right _ inside)
  obtain ⟨wrap, same, layout⟩ := breaking_eq ctx (headerText kind line gap (spacedWords held))
    (line.lead ++ ['\t']) (joinWords rest)
  rw [words_joinWords isWordRest] at layout
  have free : ∀ given ∈ wrap.fillWords rest, ∃ word more, given = word :: more ∧
      opensConstruct word = false := by
    intro given inside
    obtain ⟨word, more, rfl, quiet⟩ := wrap.begin_of_mem_fillWords rest given inside
    refine ⟨word, more, rfl, ?_⟩
    rw [same, sticky] at quiet
    rw [sticky] at firstFree
    exact quiet.elim id (firstFree word)
  obtain ⟨blanks, spaced, indents, apart⟩ := spacedWords_eq held
  obtain ⟨taken, again, rereads, written⟩ := rereads_lines member isLead argues gapIndents someGap
    indents apart (isLead.append indents_tab) isWordHeld (wrap.isWord_of_mem_fillWords isWordRest) free
  rw [wrap.flatten_fillWords, cut] at rereads
  refine ⟨taken, again, rereads, ?_⟩
  rw [written, layout, trimEnd,
    dropEndWhile_eq_self (last_headerText_spaced gap member argues isWordHeld), spaced]

end Constructs

/-! ## Taking constructs -/

/-- No line of prose comes next. -/
def Ends (rest : List Lexeme) : Prop := ∀ lexeme ∈ rest.head?, ∀ line, lexeme.token ≠ .text line

/-- Tokens of one form are taken one after the other, and then what follows. -/
theorem runs_spelled {ι γ : Type} {token : ι → Token} {value : ι → List γ}
    {value? : Token → Option (List γ)} (reads : ∀ item, value? (token item) = some (value item))
    {items : List ι} (tokens : tokensOf taken = items.map token)
    (refused : takeOne (fun lexeme : Lexeme => value? lexeme.token) rest = none) :
    Runs (takeOne fun lexeme => value? lexeme.token) (taken ++ rest) (items.flatMap value) rest := by
  induction items generalizing taken with
  | nil =>
    rw [map_eq_nil_iff.mp tokens]
    exact .stop refused
  | cons item items ih =>
    obtain ⟨first, more, rfl, same, later⟩ := map_eq_cons_iff.mp tokens
    refine .again ?_ (ih later)
    rw [cons_append, takeOne, same, reads]
    rfl

theorem Ends.refused {γ : Type} (ends : Ends rest) (make : TagLine → γ) :
    proseLine make rest = none := by
  cases rest with
  | nil => rfl
  | cons lexeme rest =>
    have other := ends lexeme rfl
    rw [proseLine, takeOne, Option.map_eq_none_iff]
    cases same : lexeme.token with
    | text line => exact absurd same (other line)
    | _ => rfl

theorem runs_prose {γ : Type} (make : TagLine → γ) (tokens : tokensOf taken = more.map .text)
    (ends : Ends rest) :
    Runs (proseLine make) (taken ++ rest) (more.flatMap fun line => [make line]) rest :=
  runs_spelled (fun _ => rfl) tokens (ends.refused make)

/-- The tokens of a construct are taken as the construct. -/
theorem marked_append (tokens : tokensOf taken = .header kind header :: more.map .text)
    (ends : Ends rest) : marked kind (taken ++ rest) = some (header :: more, rest) := by
  obtain ⟨first, others, rfl, same, later⟩ := map_eq_cons_iff.mp tokens
  have head : markedLine kind (first :: (others ++ rest)) = some ([header], others ++ rest) := by
    rw [markedLine, takeOne, same, headerLine?, if_pos rfl]
    rfl
  have prose := (shortens_takeOne _).takeMany_eq (runs_prose id later ends)
  rw [← map_eq_flatMap, map_id] at prose
  rw [marked, cons_append]
  refine takeEach_cons_eq_some.mpr ⟨[header], _, more, head, ?_, rfl⟩
  exact takeEach_cons_eq_some.mpr ⟨more, rest, [], prose, rfl, (append_nil _).symm⟩

theorem piece_append {γ : Type} {make : List γ → Text → BlockItem} {taking : Taking Lexeme γ}
    {values : List γ} (found : taking (taken ++ rest) = some (values, rest)) :
    piece make taking (taken ++ rest) =
      some ([.plain (textOf taken) (make values (textOf taken))], rest) :=
  takeText_append found

/-- The kind of the elements that begin with a token. -/
def Token.kind? : Token → Option Construct
  | .separator _ => none
  | .header kind _ => some (if kind.isParameter then .param else kind)
  | .code _ _ _ => some .code
  | .row _ => some .table
  | .bullet _ => some .listItems
  | .link _ => some .referenceLink
  | .text _ => some .details

/-- How an element of a kind is taken off a body. -/
def elementFor : Option Construct → Taking Lexeme Piece
  | none => separatorPiece
  | some .param => runPiece
  | some .code => codePiece
  | some .table => verbatimOf .table tableRows
  | some .listItems => itemsPiece
  | some .referenceLink => verbatimOf .referenceLink linkTarget
  | some .details => paragraphOf .details proseLines
  | some kind =>
    if kind ∈ markedKinds then paragraphOf kind (marked kind)
    else if kind ∈ referenceKinds then paragraphOf kind (markedLine kind)
    else fun _ => none

/-- The first token decides which element is taken. -/
theorem element_cons (first : Lexeme) (rest : List Lexeme) :
    element (first :: rest) = elementFor first.token.kind? (first :: rest) := by
  obtain ⟨source, token⟩ := first
  cases token with
  | header kind line => cases kind <;> rfl
  | bullet item =>
    obtain ⟨breaking⟩ := item
    cases breaking <;> rfl
  | _ => rfl

/-- The first lexeme is a token of the kind. -/
def Begins (kind? : Option Construct) (lexemes : List Lexeme) : Prop :=
  ∃ first others, lexemes = first :: others ∧ first.token.kind? = kind?

theorem element_of_kind {kind? : Option Construct} (begins : Begins kind? taken) :
    element (taken ++ rest) = elementFor kind? (taken ++ rest) := by
  obtain ⟨first, others, rfl, rfl⟩ := begins
  exact element_cons first _

end Reflow.Document.Block
