import Reflow.Proofs.LineContent
import Reflow.Proofs.ParameterRuns

/-!
# The content of the elements of a body

What an element of a block comment holds besides white space and stars, `itemContent`, is read off the
element alone. The lines it was taken from have that content (`ElementOf.holds_kept`). Separators have
no content, so that tidying a run changes none.
-/

namespace Reflow.Document.Block

open Text Layout Reflow.Expr List

/-! ## Content -/

def linesContent (lines : List TagLine) : Text := lines.flatMap fun line => solid line.contents

def entryContent : RunEntry → Text
  | .parameter entry => entry.marker ++ (entry.name ++ linesContent entry.lines)
  | .separator _ => []

def bulletContent (item : ListItem) : Text := solid item.start ++ item.contents.flatMap solid

def codeContent (header : TagLine) (body : List (Option Text)) (close : Text) :
    Text :=
  "@code".toList ++ (solid header.argument ++ (body.flatMap (fun line => solid (line.getD [])) ++
    bare close))

def paragraphContent : Paragraph → Text
  | .contiguous kind lines => kind.marker.toList ++ linesContent lines
  | .parameters entries => entries.flatMap entryContent
  | .breaking kind lines =>
    kind.marker.toList ++ ((lines.head?.getD {}).argument ++ linesContent lines)
  | .code header body close => codeContent header body close
  | .reference kind line => kind.marker.toList ++ solid line.contents
  | .listItems items => items.flatMap bulletContent
  | .verbatim _ text => (lines text).flatMap bare

def itemContent : BlockItem → Text
  | .paragraph paragraph => paragraphContent paragraph
  | .separator _ => []

theorem solid_joinContents (contents : List Text) :
    solid (joinContents contents) = contents.flatMap solid := by
  have isWord : ∀ word ∈ contents.flatMap words, IsWord word := by
    intro word member
    obtain ⟨text, _, inside⟩ := mem_flatMap.mp member
    exact isWord_of_mem_words inside
  rw [joinContents, solid_joinWords_eq isWord]
  induction contents with
  | nil => rfl
  | cons text contents ih =>
    have later := ih fun word member => isWord word (mem_append_right _ member)
    rw [flatMap_cons, flatten_append, flatten_words, later, flatMap_cons]

theorem solid_joinLines (lines : List TagLine) : solid (joinLines lines) = linesContent lines := by
  rw [joinLines, solid_joinContents, flatMap_map]
  rfl

theorem solid_marker (kind : Construct) : solid kind.marker.toList = kind.marker.toList := by
  cases kind <;> decide

theorem solid_headerOf (kind : Construct) : solid (headerOf kind) = kind.marker.toList := by
  cases kind <;> decide

theorem unbroken_headerOf (kind : Construct) : '\n' ∉ headerOf kind := by
  cases kind <;> decide

variable {text line : Text} {kind : Construct} {header : TagLine} {lines more : List TagLine}
  {taken : List Lexeme}

theorem bare_separator (found : line? line = some (.separator line)) : bare line = [] := by
  obtain ⟨_, front, rest, star, empty⟩ := Token.of_line? found
  rw [bare_of_star? star, ← solid_dropWhile (fun _ => isBlank_of_isIndent) rest, empty]
  rfl

/-! ## Fenced code -/

/-- Behind the marker of a fence stands a hint between blanks. -/
theorem fenceHint?_split {hint : Text} (found : fenceHint? text = some hint) :
    ∃ gap blanks, text = gap ++ (hint ++ blanks) ∧ Indents gap ∧
      Indents blanks := by
  have indents := indents_takeWhile text
  have whole : text.takeWhile isIndent ++ text.dropWhile isIndent = text :=
    takeWhile_append_dropWhile
  unfold fenceHint? at found
  dsimp only at found
  split at found
  · next hint' rest hinted =>
    split at found
    · next empty =>
      cases found
      have blanks : Indents rest := by
        rw [← all_eq_isEmpty_dropWhile] at empty
        exact all_eq_true.mp empty
      exact ⟨_, rest, by rw [← hint?_split hinted, whole], indents, blanks⟩
    · cases found
  · split at found
    · next empty =>
      cases found
      refine ⟨_, [], ?_, indents, nofun⟩
      rw [List.isEmpty_iff.mp empty] at whole
      exact whole.symm
    · cases found

/-- The first line of fenced code is a lead, the marker and a hint. -/
theorem of_fence? (found : fence? line = some header) :
    IsLead header.lead ∧ ∃ gap blanks,
      line = header.lead ++ ("@code".toList ++ (gap ++ (header.argument ++ blanks))) ∧
        Indents gap ∧ Indents blanks := by
  unfold fence? at found
  split at found
  · cases found
  · next front rest star =>
    split at found
    · next text opened =>
      obtain ⟨hint, hinted, rfl⟩ := Option.map_eq_some_iff.mp found
      obtain ⟨body, split, known, rfl⟩ := opening_eq_iff.mp opened
      have word : body.takeWhile isWordChar = "code".toList := by
        have only : ∀ entry ∈ commands, entry.2 = .code → entry.1 = "code".toList := by decide
        exact only _ known rfl
      have whole : body.takeWhile isWordChar ++ body.dropWhile isWordChar = body :=
        takeWhile_append_dropWhile
      obtain ⟨lineEq, isLead⟩ := isLead_of_text star (by rw [split]; exact cons_ne_nil _ _)
      obtain ⟨gap, blanks, hintEq, indents, inside⟩ := fenceHint?_split hinted
      refine ⟨isLead, gap, blanks, ?_, indents, inside⟩
      rw [lineEq, split, ← whole, word, hintEq]
      rfl
    · cases found

/-- A line between fences has the content of its text. -/
theorem of_fencedLine? {text : Option Text} (found : fencedLine? line = some text) :
    bare line = solid (text.getD []) ∧ ('\n' ∉ line → '\n' ∉ text.getD []) := by
  unfold fencedLine? at found
  split at found
  · cases found
  · next front rest star =>
    have textEq : text.getD [] = rest.drop 1 := by
      dsimp only at found
      split at found
      · next empty =>
        cases found
        exact (List.isEmpty_iff.mp empty).symm
      · split at found
        · cases found
        · cases found
          rfl
    have blank := head_of_star? star
    rw [textEq, bare_of_star? star]
    constructor
    · cases rest with
      | nil => rfl
      | cons c rest => exact solid_cons_blank (isBlank_of_isIndent blank) rest
    · intro unbroken member
      exact unbroken_of_star? star unbroken (mem_of_mem_drop member)

/-! ## Written elements -/

theorem holds_contiguous_paragraph (ctx : Context) (kind : Construct)
    (isLead : IsLead (leadOf lines)) :
    Holds (composeParagraph ctx (.contiguous kind lines))
      (paragraphContent (.contiguous kind lines)) := by
  have written := holds_contiguous isLead ctx (unbroken_headerOf kind) (joinLines lines)
  rw [solid_headerOf, solid_joinLines] at written
  exact written

/-- A bullet item begins with a line of its own. -/
theorem ItemOf.exists_start {item : ListItem} (isItem : ItemOf taken item) (sound : Sound taken) :
    ∃ start more, item = { start with contents := start.contents ++ more } ∧
      line? start.head = some (.bullet start) ∧ '\n' ∉ start.head := by
  cases isItem with
  | @item start more tokens =>
    obtain ⟨first, _, rfl, same, _⟩ := map_eq_cons_iff.mp tokens
    obtain ⟨line, _, found, clean⟩ := sound.head (by rw [same]; exact nofun)
    rw [same] at found
    obtain ⟨_, rfl, _⟩ := Token.of_line? found
    exact ⟨start, _, rfl, found, clean⟩

theorem ItemOf.holds {item : ListItem} (isItem : ItemOf taken item) (sound : Sound taken)
    (ctx : Context) : Holds (item.compose ctx) (bulletContent item) := by
  obtain ⟨start, more, rfl, found, clean⟩ := isItem.exists_start sound
  obtain ⟨text, _, isLead, indents, _, contents, lineEq, _⟩ := Token.of_line? found
  have unbroken : '\n' ∉ start.start ++ text := fun member => clean (by simp_all)
  have deeper := isLead.append indents
  unfold ListItem.compose bulletContent
  dsimp only
  split
  · have written := holds_breaking deeper ctx unbroken (deeper.append indents_tab)
      (joinContents more)
    rw [solid_joinContents, solid_append, append_assoc] at written
    rw [lineEq, contents]
    simpa using written
  · have written := holds_bullet deeper ctx (fun member => unbroken (mem_append_left _ member))
      (joinContents (start.contents ++ more))
    rw [solid_joinContents] at written
    exact written

/-! ## Tidied elements -/

/-- Tidying keeps the content of what stays. -/
theorem flatMap_tidyItem_run (policy : UnnamedPolicy) (entries : List RunEntry) :
    (tidyItem policy (.paragraph (.parameters entries))).flatMap itemContent =
      (entries.filter (RunEntry.stays policy)).flatMap entryContent := by
  have noContent : ∀ entry : RunEntry, entry.isSeparator → entryContent entry = [] := by
    intro entry separates
    cases entry with
    | parameter _ => cases separates
    | separator _ => rfl
  have outside : ∀ line, (separators line).flatMap itemContent = (edge line).flatMap entryContent := by
    intro line
    cases line <;> rfl
  have inside : (if (tidyRun policy entries).entries.isEmpty then []
      else [BlockItem.paragraph (.parameters (tidyRun policy entries).entries)]).flatMap itemContent =
        (tidyRun policy entries).entries.flatMap entryContent := by
    split
    · next empty =>
      rw [List.isEmpty_iff.mp empty]
      rfl
    · exact flatMap_singleton itemContent _
  rw [tidyItem_run, flatMap_append, flatMap_append, outside, outside, inside,
    ← flatMap_append, ← flatMap_append, separated_tidyRun]
  exact flatMap_collapseFrom noContent false _

theorem holds_textOf (sound : Sound taken) :
    Holds (textOf taken) ((taken.flatMap Lexeme.source).flatMap bare) :=
  ⟨_, sound.unbroken, rfl, rfl⟩

/-! ## Read elements -/

def Token.content : Token → Text
  | .separator _ => []
  | .header kind line => kind.marker.toList ++ (line.argument ++ solid line.contents)
  | .code first body close => codeContent first body close
  | .row line | .link line => bare line
  | .bullet item => bulletContent item
  | .text line => solid line.contents

/-- Behind the marker of a header line stand its argument and its text. -/
theorem solid_behind_marker {line : TagLine} {gap blanks : Text}
    (argues : Argues kind line.argument) (inside : Indents gap) (behind : Indents blanks) :
    solid (gap ++ (line.argument ++ (blanks ++ line.contents))) =
      line.argument ++ solid line.contents := by
  rw [solid_append, solid_append, solid_append, solid_of_indents inside, solid_of_indents behind,
    solid_of_solid argues.solid, nil_append, nil_append]

/-- Only a returned value has two markers. -/
theorem marker_of_command {word : Text} (known : (word, kind) ∈ commands)
    (other : kind ≠ .returns) : '@' :: word = kind.marker.toList := by
  have spelled : ∀ entry ∈ commands, entry.2 ≠ .returns →
      '@' :: entry.1 = entry.2.marker.toList := by decide
  exact spelled _ known other

theorem content_of_line? {token : Token} (found : line? line = some token)
    (other : ∀ header, token ≠ .header .returns header) : bare line = token.content := by
  have shape := Token.of_line? found
  cases token with
  | separator same =>
    obtain ⟨rfl, _⟩ := shape
    exact bare_separator found
  | header kind first =>
    obtain ⟨_, isLead, argues, word, _, _, _, known, rfl, _, rfl, inside, behind⟩ := shape
    have marker := marker_of_command known fun same => other first (by rw [same])
    rw [bare_lead isLead, marker, solid_append, solid_marker,
      solid_behind_marker argues inside behind]
    rfl
  | code header body close => exact absurd shape id
  | row | link => exact congrArg bare (Eq.symm shape)
  | bullet item =>
    obtain ⟨text, _, isLead, indents, _, contents, rfl, _⟩ := shape
    rw [bare_lead isLead, solid_append, solid_append, solid_of_indents indents, nil_append,
      Token.content, bulletContent, contents, flatMap_singleton]
  | text prose =>
    obtain ⟨rfl, isLead, _⟩ := shape
    exact bare_lead isLead _

/-- The lines between fences have the content of their texts. -/
theorem flatMap_fencedLine? {body : List Text} (inner : ∀ line ∈ body, isFenced line) :
    body.flatMap bare = (body.filterMap fencedLine?).flatMap fun line => solid (line.getD []) := by
  induction body with
  | nil => rfl
  | cons line body ih =>
    obtain ⟨here, later⟩ := forall_mem_cons.mp inner
    obtain ⟨text, found⟩ := Option.isSome_iff_exists.mp here
    rw [filterMap_cons_some found, flatMap_cons, flatMap_cons, (of_fencedLine? found).1, ih later]

/-- The lines of a token have its content. -/
theorem IsToken.content {source : List Text} {token : Token} (known : IsToken source token)
    (other : ∀ header, token ≠ .header .returns header) : source.flatMap bare = token.content := by
  cases known with
  | line found =>
    rw [flatMap_singleton]
    exact content_of_line? found other
  | @code first close header body opens inner ends =>
    obtain ⟨isLead, gap, blanks, rfl, inside, behind⟩ := of_fence? opens
    have marker : solid "@code".toList = "@code".toList := by decide
    rw [flatMap_cons, flatMap_append, flatMap_singleton, flatMap_fencedLine? inner, bare_lead isLead,
      Token.content, codeContent, bare_newline, solid_append, solid_append, solid_append, marker,
      solid_of_indents inside, solid_of_indents behind, nil_append, append_nil,
      append_assoc]

/-- Lexemes without the header of a returned value have the content of their tokens. -/
theorem holds_tokens (sound : Sound taken)
    (other : ∀ header, .header .returns header ∉ tokensOf taken) :
    Holds (textOf taken) ((tokensOf taken).flatMap Token.content) := by
  have same : (taken.flatMap Lexeme.source).flatMap bare =
      (tokensOf taken).flatMap Token.content := by
    induction taken with
    | nil => rfl
    | cons first taken ih =>
      have here := (sound.known first mem_cons_self).content fun header token =>
        other header (by rw [← token]; exact mem_cons_self)
      have later := ih sound.tail (fun item member => other item (mem_cons_of_mem _ member))
      rw [flatMap_cons, flatMap_append, here, later]
      rfl
  rw [← same]
  exact holds_textOf sound

theorem returns_not_mem_text (lines : List TagLine) (header : TagLine) :
    .header .returns header ∉ lines.map Token.text := by
  intro member
  obtain ⟨_, _, impossible⟩ := mem_map.mp member
  cases impossible

theorem returns_not_mem_separator (lines : List Text) (header : TagLine) :
    .header .returns header ∉ lines.map Token.separator := by
  intro member
  obtain ⟨_, _, impossible⟩ := mem_map.mp member
  cases impossible

theorem flatMap_content_text (lines : List TagLine) :
    (lines.map Token.text).flatMap Token.content = linesContent lines :=
  flatMap_map ..

theorem flatMap_content_separator (lines : List Text) :
    (lines.map Token.separator).flatMap Token.content = [] := by
  rw [flatMap_map]
  exact flatMap_eq_nil_iff.mpr fun _ _ => rfl

/-- A header line with its prose has the content of both. -/
theorem holds_header (sound : Sound taken) (other : kind ≠ .returns)
    (tokens : tokensOf taken = .header kind header :: more.map .text) :
    Holds (textOf taken) (kind.marker.toList ++ header.argument ++ linesContent (header :: more)) := by
  have content := holds_tokens sound fun first member => by
    rw [tokens] at member
    rcases mem_cons.mp member with same | later
    · cases same
      exact other rfl
    · exact returns_not_mem_text more first later
  rw [tokens, flatMap_cons, flatMap_content_text] at content
  simpa [Token.content, linesContent] using content

theorem holds_prose (sound : Sound taken) (tokens : tokensOf taken = lines.map .text) :
    Holds (textOf taken) (linesContent lines) := by
  have content := holds_tokens sound fun header => by
    rw [tokens]
    exact returns_not_mem_text lines header
  rw [tokens, flatMap_content_text] at content
  exact content

theorem holds_separators (sound : Sound taken) {lines : List Text}
    (tokens : tokensOf taken = lines.map .separator) : Holds (textOf taken) [] := by
  have content := holds_tokens sound fun header => by
    rw [tokens]
    exact returns_not_mem_separator lines header
  rw [tokens, flatMap_content_separator] at content
  exact content

/-! ## What is kept of elements -/

/-- A text whose first marker is spelled as that of a returned value. -/
def respelled (text : Text) : Text :=
  text.takeWhile (· != '@') ++ ("@returns".toList ++
    ((text.dropWhile (· != '@')).drop 1).dropWhile isWordChar)

/-- The text of an element without the parameters that go under a policy, and with one spelling for
the marker of a returned value. -/
def keptPiece (policy : UnnamedPolicy) : Piece → Text
  | .plain text (.paragraph (.contiguous .returns _)) => respelled text
  | .plain text _ => text
  | .run _ entries => entries.flatMap fun entry => if entry.2.stays policy then entry.1 else []

theorem respelled_eq {lead word rest : Text} (isLead : IsLead lead)
    (wordChars : ∀ c ∈ word, isWordChar c) (stop : ∀ c ∈ rest.head?, isWordChar c = false) :
    respelled (lead ++ '@' :: (word ++ rest)) = lead ++ ("@returns".toList ++ rest) := by
  have noMark : ∀ c ∈ lead, (c != '@') = true := by
    obtain ⟨front, blanks, rfl, outside, inside, _⟩ := isLead
    have indents : ∀ c, isIndent c → (c != '@') = true := by
      intro c indent
      simp only [isIndent, Bool.or_eq_true, beq_iff_eq] at indent
      rcases indent with rfl | rfl <;> rfl
    intro c member
    rcases mem_append.mp member with early | late
    · exact indents c (outside c early)
    · rcases mem_cons.mp late with rfl | blank
      · rfl
      · exact indents c (inside c blank)
  have stops : ∀ c ∈ ('@' :: (word ++ rest)).head?, (c != '@') = false := by
    intro c first
    cases first
    rfl
  obtain ⟨front, back⟩ := takeWhile_stop noMark stops
  rw [respelled, front, back, drop_one, tail_cons, (takeWhile_stop wordChars stop).2]

/-- The lines of a returned value, with one spelling for its marker. -/
theorem holds_respelled (sound : Sound taken)
    (tokens : tokensOf taken = .header .returns header :: more.map .text) :
    Holds (respelled (textOf taken)) (paragraphContent (.contiguous .returns (header :: more))) := by
  obtain ⟨first, others, rfl, same, later⟩ := map_eq_cons_iff.mp tokens
  obtain ⟨line, source, found, clean⟩ := sound.head (by rw [same]; exact nofun)
  rw [same] at found
  obtain ⟨_, isLead, argues, word, text, gap, blanks, known, rfl, stop, rfl, inside, behind⟩ :=
    Token.of_line? found
  have wordChars : ∀ c ∈ word, isWordChar c := by
    have listed : ∀ entry ∈ commands, entry.1.all isWordChar := by decide
    exact all_eq_true.mp (listed _ known)
  have stopLine : ∀ c ∈ ((gap ++ (header.argument ++ (blanks ++ header.contents))) ++
      '\n' :: textOf others).head?, isWordChar c = false := by
    intro c first
    cases afterMarker : gap ++ (header.argument ++ (blanks ++ header.contents)) with
    | nil =>
      rw [afterMarker] at first
      cases first
      rfl
    | cons d rest =>
      rw [afterMarker] at first stop
      cases first
      exact stop _ rfl
  have textEq : textOf (first :: others) = header.lead ++ '@' :: (word ++
      ((gap ++ (header.argument ++ (blanks ++ header.contents))) ++ '\n' :: textOf others)) := by
    rw [textOf, flatMap_cons, source, singleton_append, unlines_cons]
    simp [textOf]
  have unbroken : '\n' ∉ "@returns".toList ++
      (gap ++ (header.argument ++ (blanks ++ header.contents))) := by
    refine not_mem_append (by decide) fun member => clean ?_
    exact mem_append_right _ (mem_append_right _ member)
  have head := Holds.line (not_mem_append isLead.unbroken unbroken)
  have marker : solid "@returns".toList = "@returns".toList := by decide
  have noArgument : header.argument = [] := argues
  rw [bare_lead isLead, solid_append, marker, solid_behind_marker argues inside behind,
    noArgument, nil_append] at head
  have below := holds_prose sound.tail later
  have whole := head.append below
  rw [textEq, respelled_eq isLead wordChars stopLine, noArgument]
  simpa [paragraphContent, linesContent, Construct.marker] using whole

theorem EntryOf.holds {value : Text × RunEntry} (entry : EntryOf taken value)
    (sound : Sound taken) : Holds value.1 (entryContent value.2) := by
  cases entry with
  | @parameter kind header more parameterKind tokens =>
    have other : kind ≠ .returns := by
      rintro rfl
      cases parameterKind
    have content := holds_header sound other tokens
    rw [append_assoc] at content
    exact content
  | separator tokens => exact holds_separators sound tokens

theorem ItemOf.holds_text {item : ListItem} (isItem : ItemOf taken item) (sound : Sound taken) :
    Holds (textOf taken) (bulletContent item) := by
  cases isItem with
  | @item start more tokens =>
    have content := holds_tokens sound fun header member => by
      rw [tokens] at member
      rcases mem_cons.mp member with impossible | later
      · cases impossible
      · exact returns_not_mem_text more header later
    rw [tokens, flatMap_cons, flatMap_content_text] at content
    simpa [Token.content, bulletContent, linesContent, flatMap_map] using content

/-- Groups of lexemes have the content of their values, one after the other. -/
theorem holds_flatten {γ : Type} {related : List Lexeme → γ → Prop} {content : γ → Text}
    (one : ∀ {group value}, related group value → Sound group → Holds (textOf group) (content value))
    {groups : List (List Lexeme)} {values : List γ} (each : Forall₂ related groups values)
    (sound : Sound groups.flatten) : Holds (textOf groups.flatten) (values.flatMap content) := by
  induction each with
  | nil => exact .nil
  | @cons group value groups values here _ ih =>
    have later : Sound groups.flatten :=
      ⟨fun lexeme member => sound.known lexeme (mem_append_right _ member), fun line member =>
        sound.unbroken line (by
          rw [flatten_cons, flatMap_append]
          exact mem_append_right _ member)⟩
    rw [flatten_cons, textOf_append, flatMap_cons]
    exact (one here (sound.of_mem mem_cons_self)).append (ih later)

/-- A construct with a marker has the content of its lines. -/
theorem holds_marked (sound : Sound taken) (member : kind ∈ markedKinds)
    (tokens : tokensOf taken = .header kind header :: more.map .text) (policy : UnnamedPolicy) :
    Holds (keptPiece policy (.plain (textOf taken) (.paragraph (ofLines kind (header :: more)))))
      (paragraphContent (ofLines kind (header :: more))) := by
  obtain ⟨_, _, same, _, argues⟩ := headed_of_tokens sound tokens
  cases same
  have breaks : kind ≠ .returns → Holds (textOf taken)
      (paragraphContent (.breaking kind (header :: more))) := by
    intro other
    have content := holds_header sound other tokens
    rw [append_assoc] at content
    exact content
  simp only [markedKinds, mem_cons, not_mem_nil, or_false] at member
  rcases member with rfl | rfl | rfl | rfl | rfl
  · have noArgument : header.argument = [] := argues
    have content := holds_header sound (by decide) tokens
    rw [noArgument, append_nil] at content
    exact content
  · exact holds_respelled sound tokens
  · exact breaks (by decide)
  · exact breaks (by decide)
  · exact breaks (by decide)

/-- What stays of a run, element by element. -/
theorem flatMap_stays (policy : UnnamedPolicy) (entries : List (Text × RunEntry)) :
    (entries.flatMap fun entry => if entry.2.stays policy then entryContent entry.2 else []) =
      ((entries.map (·.2)).filter (RunEntry.stays policy)).flatMap entryContent := by
  induction entries with
  | nil => rfl
  | cons entry entries ih =>
    rw [flatMap_cons, ih, map_cons]
    cases stays : entry.2.stays policy with
    | true => rw [filter_cons_of_pos stays, if_pos rfl, flatMap_cons]
    | false => rw [filter_cons_of_neg (by simp [stays]), if_neg Bool.false_ne_true, nil_append]

/-- What is kept of an element has the content of what is made of it. -/
theorem ElementOf.holds_kept {piece : Piece} (element : ElementOf taken piece)
    (sound : Sound taken) (policy : UnnamedPolicy) :
    Holds (keptPiece policy piece) ((tidyItem policy piece.item).flatMap itemContent) := by
  have alone : (∀ entries, piece.item ≠ .paragraph (.parameters entries)) →
      (tidyItem policy piece.item).flatMap itemContent = itemContent piece.item := by
    intro other
    rw [tidyItem_other policy other, flatMap_singleton]
  cases element with
  | separator tokens =>
    rw [alone (by rintro _ ⟨⟩)]
    exact holds_separators sound tokens
  | marked listed tokens =>
    rw [alone fun entries same => ofLines_ne_parameters _ _ _ (BlockItem.paragraph.inj same)]
    exact holds_marked sound listed tokens policy
  | @run groups entries whole each =>
    rw [Piece.item, flatMap_tidyItem_run, ← flatMap_stays]
    refine Holds.flatMap fun entry member => ?_
    obtain ⟨group, here, isEntry⟩ := each.exists_of_mem member
    split
    · exact isEntry.holds (Sound.of_mem (whole ▸ sound) here)
    · exact .nil
  | code tokens =>
    rw [alone (by rintro _ ⟨⟩)]
    have content := holds_tokens sound fun header member => by
      rw [tokens] at member
      cases mem_singleton.mp member
    rw [tokens, flatMap_singleton] at content
    exact content
  | @reference kind line member tokens =>
    rw [alone (by rintro _ ⟨⟩)]
    have withProse : tokensOf taken = .header kind line :: ([] : List TagLine).map .text := tokens
    obtain ⟨_, _, same, _, argues⟩ := headed_of_tokens sound withProse
    cases same
    have facts : ∀ kind ∈ referenceKinds, kind ≠ .returns ∧ takesArgument kind = false := by decide
    obtain ⟨other, plain⟩ := facts kind member
    have noArgument : line.argument = [] := by
      rw [Argues, plain] at argues
      exact argues
    have content := holds_header sound other withProse
    rw [noArgument, append_nil, linesContent, flatMap_singleton] at content
    exact content
  | table _ | link _ =>
    rw [alone (by rintro _ ⟨⟩)]
    have content := holds_textOf sound
    rw [← content.eq_lines] at content
    exact content
  | items _ whole each =>
    rw [alone (by rintro _ ⟨⟩)]
    subst whole
    exact holds_flatten (fun isItem sound => isItem.holds_text sound) each sound
  | details _ tokens =>
    rw [alone (by rintro _ ⟨⟩)]
    exact holds_prose sound tokens

theorem keptPiece_plain (policy : UnnamedPolicy) (text : Text) {item : BlockItem}
    (other : ∀ lines, item ≠ .paragraph (.contiguous .returns lines)) :
    keptPiece policy (.plain text item) = text := by
  unfold keptPiece
  split
  · next same =>
    cases same
    exact absurd rfl (other _)
  · next same => cases same; rfl
  · next same => cases same

/-- The elements of a run make up its text. -/
theorem flatMap_entries {text : Text} {entries : List (Text × RunEntry)}
    (element : ElementOf taken (.run text entries)) : entries.flatMap (·.1) = text := by
  cases element with
  | run whole each =>
    subst whole
    induction each with
    | nil => rfl
    | cons one _ ih =>
      rw [flatMap_cons, ih, flatten_cons, textOf_append]
      congr 1
      cases one <;> rfl

theorem stays_keep (entry : RunEntry) : entry.stays .keep := by
  cases entry <;> simp [RunEntry.stays]

/-- An element other than a returned value has its content. -/
theorem ElementOf.holds {piece : Piece} (element : ElementOf taken piece) (sound : Sound taken)
    (other : ∀ lines, piece.item ≠ .paragraph (.contiguous .returns lines)) :
    Holds (textOf taken) (itemContent piece.item) := by
  have content := element.holds_kept sound .keep
  have plain : ∀ {item : BlockItem}, (∀ lines, item ≠ .paragraph (.contiguous .returns lines)) →
      (∀ entries, item ≠ .paragraph (.parameters entries)) →
      Holds (keptPiece .keep (.plain (textOf taken) item))
        ((tidyItem .keep item).flatMap itemContent) →
      Holds (textOf taken) (itemContent item) := by
    intro item other noRun content
    rwa [keptPiece_plain _ _ other, tidyItem_other _ noRun, flatMap_singleton] at content
  cases element with
  | @run groups entries whole each =>
    have kept : keptPiece .keep (.run (textOf taken) entries) = textOf taken := by
      simpa [keptPiece, stays_keep] using flatMap_entries (.run whole each)
    rwa [kept, Piece.item, flatMap_tidyItem_run,
      filter_eq_self.mpr fun entry _ => stays_keep entry] at content
  | marked _ _ =>
    exact plain other (fun _ same => ofLines_ne_parameters _ _ _ (BlockItem.paragraph.inj same))
      content
  | _ =>
    exact plain other (by rintro _ ⟨⟩) content

end Reflow.Document.Block
