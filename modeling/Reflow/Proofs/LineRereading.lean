import Reflow.Document.Format
import Reflow.Proofs.Layout.Lines
import Reflow.Proofs.LineReading

/-!
# Line comments read again

What is written for a line comment is read again as what it was written from: the same elements, with
the same words behind the same leads. A lead is read again if it ends with a space or if a word
character follows it, and filling begins no other line.
-/

namespace Reflow

open List

/-! ## The last line break -/

theorem endsLine_append {front text : Text} (someChar : text ≠ []) (unbroken : '\n' ∉ text) :
    endsLine (front ++ text) = false := by
  have last : text.getLast someChar ≠ '\n' := by
    intro same
    apply unbroken
    rw [← same]
    exact getLast_mem someChar
  rw [endsLine, List.getLast?_append, List.getLast?_eq_some_getLast someChar, Option.some_or]
  simpa using last

variable {style : Style} {formatted : Text}

/-- A text without a last line break is formatted with one, which is taken off again. -/
theorem format_of_open {kind : TextKind} {text : Text} (ends : endsLine text = false) :
    format style kind text = .ok formatted ↔
      ∃ whole, formatLines style (text ++ ['\n']) kind = .ok whole ∧
        dropLineBreak whole = formatted := by
  rw [format, if_neg (by rw [ends]; simp)]
  cases formatLines style (text ++ ['\n']) kind with
  | error error => simp [bind, Except.bind]
  | ok whole => simp [bind, Except.bind, pure, Except.pure]

namespace Document.LineComment

open Text Layout Reflow.Expr

/-! ## Leads -/

variable {next mark rest line body : Text} {items : List Item}

/-- A run of characters is found again in front of one that does not belong to it. -/
theorem takeWhile_again (test : Char → Bool) (text : Text)
    (stops : ∀ c ∈ next.head?, test c = false) :
    (text.takeWhile test ++ next).takeWhile test = text.takeWhile test ∧
      (text.takeWhile test ++ next).dropWhile test = next :=
  takeWhile_stop (all_eq_true.mp all_takeWhile) stops

/-- Punctuation is read again unless it goes on. -/
theorem mark?_again {text : Text} (found : mark? text = some (mark, rest))
    (stops : ∀ c ∈ next.head?, c ≠ '/' ∧ c ≠ '!' ∧ c ≠ '#') :
    mark? (mark ++ next) = some (mark, next) := by
  unfold mark? at found
  split at found
  · next body =>
    split at found
    · cases found
      have bang : ∀ c ∈ ('!' :: next).head?, (c == '/') = false := by simp
      obtain ⟨taken, dropped⟩ := takeWhile_again (· == '/') body bang
      simp only [cons_append, append_assoc, nil_append, mark?, taken, dropped]
    · cases found
      have other : ∀ c ∈ next.head?, (c == '/') = false := fun c first => by simp [stops c first]
      obtain ⟨taken, dropped⟩ := takeWhile_again (· == '/') body other
      simp only [cons_append, mark?, taken, dropped]
      cases next with
      | nil => rfl
      | cons c rest => simp [stops c rfl]
  · next body =>
    cases found
    have other : ∀ c ∈ next.head?, (c == '#') = false := fun c first => by simp [stops c first]
    obtain ⟨taken, dropped⟩ := takeWhile_again (· == '#') body other
    simp only [cons_append, mark?, taken, dropped]
  · cases found

theorem mem_mark {text : Text} (found : mark? text = some (mark, rest)) :
    mark ≠ [] ∧ ∀ c ∈ mark, c = '/' ∨ c = '!' ∨ c = '#' := by
  have run : ∀ d, ∀ text : Text, ∀ c ∈ text.takeWhile (· == d), c = d := by
    intro d text c member
    simpa using all_eq_true.mp all_takeWhile c member
  unfold mark? at found
  split at found
  · next body =>
    have slashes := run '/' body
    split at found <;> cases found <;> grind
  · next body =>
    have hashes := run '#' body
    cases found
    grind
  · cases found

theorem ne_of_isWordChar {c : Char} (word : isWordChar c) :
    c ≠ '/' ∧ c ≠ '!' ∧ c ≠ '#' ∧ isIndent c = false := by
  refine ⟨?_, ?_, ?_, ?_⟩
  · rintro rfl
    cases word
  · rintro rfl
    cases word
  · rintro rfl
    cases word
  · rw [← Bool.not_eq_true]
    intro indent
    simp only [isIndent, Bool.or_eq_true, beq_iff_eq] at indent
    rcases indent with rfl | rfl <;> cases word

/-- A text may stand behind a lead: the lead ends with a space, or a word character comes first. -/
def Admits (lead text : Text) : Prop :=
  lead.getLast? = some ' ' ∨ ∃ c ∈ text.head?, isWordChar c

theorem lead?_of_mark {text : Text} (found : mark? (text.dropWhile isIndent) = some (mark, rest))
    (stops : ∀ c ∈ next.head?, c ≠ '/' ∧ c ≠ '!' ∧ c ≠ '#') :
    lead? (text.takeWhile isIndent ++ (mark ++ next)) =
      match next with
      | [] => some (text.takeWhile isIndent ++ mark, [])
      | c :: body =>
        if c = ' ' then some (text.takeWhile isIndent ++ mark ++ [' '], body)
        else if isWordChar c || c == '\n' then some (text.takeWhile isIndent ++ mark, c :: body)
        else none := by
  have first : ∀ c ∈ (mark ++ next).head?, isIndent c = false := by
    obtain ⟨someChar, known⟩ := mem_mark found
    obtain ⟨d, tail, rfl⟩ := exists_cons_of_ne_nil someChar
    intro c same
    cases same
    rcases known d mem_cons_self with rfl | rfl | rfl <;> rfl
  obtain ⟨taken, dropped⟩ := takeWhile_again isIndent text first
  rw [lead?, taken, dropped, mark?_again found stops]
  cases next <;> rfl

/-- A lead ends with a space, or with its punctuation in front of a word or of the end of the line. -/
theorem lead?_cases {lead : Text} (found : lead? line = some (lead, body)) :
    ∃ mark rest, mark? (line.dropWhile isIndent) = some (mark, rest) ∧
      (lead = line.takeWhile isIndent ++ mark ++ [' '] ∨
        lead = line.takeWhile isIndent ++ mark ∧ (∀ c ∈ lead.getLast?, isIndent c = false) ∧
          ∀ c ∈ body.head?, isWordChar c ∨ c = '\n') := by
  unfold lead? at found
  cases marked : mark? (line.dropWhile isIndent) with
  | none => rw [marked] at found; cases found
  | some pair =>
    obtain ⟨mark, rest⟩ := pair
    rw [marked] at found
    refine ⟨mark, rest, rfl, ?_⟩
    have unspaced : ∀ c ∈ (line.takeWhile isIndent ++ mark).getLast?, isIndent c = false := by
      obtain ⟨someChar, known⟩ := mem_mark marked
      rw [List.getLast?_append, List.getLast?_eq_some_getLast someChar, Option.some_or]
      rintro c ⟨⟩
      rcases known _ (getLast_mem someChar) with same | same | same <;> rw [same] <;> rfl
    cases rest with
    | nil =>
      cases found
      exact .inr ⟨rfl, unspaced, by simp⟩
    | cons c rest =>
      dsimp only at found
      split at found
      · cases found
        exact .inl rfl
      · split at found
        · next admitted =>
          cases found
          refine .inr ⟨rfl, unspaced, ?_⟩
          intro d same
          cases same
          simpa using admitted
        · cases found

/-- A lead is read again in front of every text that may stand behind it. -/
theorem lead?_again {lead text : Text} (found : lead? line = some (lead, body))
    (admits : Admits lead text) : lead? (lead ++ text) = some (lead, text) := by
  obtain ⟨mark, rest, marked, rfl | ⟨same, unspaced, _⟩⟩ := lead?_cases found
  · have stops : ∀ c ∈ (' ' :: text).head?, c ≠ '/' ∧ c ≠ '!' ∧ c ≠ '#' := by simp
    simpa using lead?_of_mark marked stops
  · have unspaced : lead.getLast? ≠ some ' ' := fun last => nomatch unspaced ' ' last
    obtain ⟨c, first, word⟩ := admits.resolve_left unspaced
    obtain ⟨slash, bang, hash, indent⟩ := ne_of_isWordChar word
    have space : c ≠ ' ' := by
      rintro rfl
      cases indent
    obtain ⟨tail, rfl⟩ := List.head?_eq_some_iff.mp first
    have stops : ∀ d ∈ (c :: tail).head?, d ≠ '/' ∧ d ≠ '!' ∧ d ≠ '#' := by
      intro d same
      cases same
      exact ⟨slash, bang, hash⟩
    rw [same, append_assoc, lead?_of_mark marked stops]
    simp [space, word]

theorem words_ne_nil (starts : startsText body) : words body ≠ [] := by
  rw [← words_dropWhile fun _ => isBlank_of_isIndent]
  unfold startsText at starts
  split at starts
  · next c rest same =>
    obtain ⟨word, later, found⟩ := head?_words (by simpa using starts) rest
    rw [same, found]
    exact cons_ne_nil _ _
  · cases starts

section Texts

variable {line lead body : Text} (found : lead? line = some (lead, body))

include found

variable {word : Text}

/-- The first word of a line may stand behind its lead. -/
theorem admits_first (unbroken : '\n' ∉ line) (starts : startsText body)
    (first : (words body).head? = some word) (rest : Text) : Admits lead (word ++ rest) := by
  obtain ⟨mark, _, _, rfl | ⟨_, _, follows⟩⟩ := lead?_cases found
  · left
    simp
  · right
    cases body with
    | nil => cases starts
    | cons c tail =>
      have character : isWordChar c := by
        rcases follows c rfl with character | rfl
        · exact character
        · exact absurd mem_cons_self (not_mem_of_lead? found unbroken)
      obtain ⟨_, _, _, indent⟩ := ne_of_isWordChar character
      have solid : isBlank c = false := by
        simpa [startsText, indent] using starts
      obtain ⟨front, later, same⟩ := head?_words solid tail
      rw [same] at first
      cases first
      exact ⟨c, rfl, character⟩

/-- A word that is not sticky may stand behind the lead. -/
theorem admits_of_free (free : stickyBehind lead word = false) (rest : Text) :
    Admits lead (word ++ rest) := by
  obtain ⟨mark, _, _, rfl | ⟨_, unspaced, _⟩⟩ := lead?_cases found
  · left
    simp
  · right
    have sticky : stickyBehind lead = needsBlank := by
      unfold stickyBehind
      split
      · next c last => rw [if_neg (by rw [unspaced c last]; simp)]
      · rfl
    rw [sticky] at free
    cases word with
    | nil => cases free
    | cons c tail => exact ⟨c, rfl, by simpa [needsBlank] using free⟩

/-- A text behind the lead of a line makes a line with the same lead. -/
theorem line?_again (isWord : IsWord word) (admits : Admits lead (word ++ rest)) :
    line? (lead ++ (word ++ rest)) = some (.text { lead, contents := word ++ rest }) := by
  obtain ⟨c, tail, rfl⟩ := exists_cons_of_ne_nil isWord.nonempty
  have solid := isWord.solid c mem_cons_self
  have indent : isIndent c = false := by
    rw [← Bool.not_eq_true]
    intro indent
    rw [isBlank_of_isIndent indent] at solid
    cases solid
  rw [line?, lead?_again found admits]
  simp [startsText, indent, solid]

end Texts

/-! ## Elements -/

def Line.source : Line → Text
  | separator line => line
  | text line => line.lead ++ line.contents

/-- A line that is read as itself. -/
def Line.Legible (line : Line) : Prop := '\n' ∉ line.source ∧ line? line.source = some line

def Item.kinds : Item → List Line
  | separator line => [.separator line.dropLast]
  | paragraph lines => lines.map .text

def Item.isSeparator : Item → Bool
  | separator _ => true
  | paragraph _ => false

/-- An element has a line, and a separator is a whole line. -/
def Item.Whole : Item → Prop
  | separator line => line.getLast? = some '\n'
  | paragraph lines => lines ≠ []

/-- Neighbours differ in kind. -/
def Alternating : List Item → Prop
  | first :: second :: rest =>
    first.isSeparator ≠ second.isSeparator ∧ Alternating (second :: rest)
  | _ => True

/-- The element that a run of lines of one class makes up. -/
inductive MakesUp : List Line → Item → Prop where
  | separator (first : Text) (run : List Text) :
      MakesUp ((first :: run).map .separator) (.separator (first ++ ['\n']))
  | paragraph (first : TagLine) (run : List TagLine) :
      MakesUp ((first :: run).map .text) (.paragraph (first :: run))

/-- Elements that are read as themselves. -/
structure Legible (items : List Item) : Prop where
  alternating : Alternating items
  whole : ∀ item ∈ items, item.Whole
  lines : ∀ item ∈ items, ∀ line ∈ item.kinds, line.Legible

theorem source_of_line? {kind : Line} (found : line? line = some kind) : kind.source = line := by
  unfold line? at found
  split at found
  · cases found
  · next lead body front =>
    split at found
    · cases found
      rfl
    · split at found
      · cases found
        exact (lead?_split front).symm
      · cases found

theorem legible_of_line? {kind : Line} (found : line? line = some kind) (unbroken : '\n' ∉ line) :
    kind.Legible := by
  unfold Line.Legible
  rw [source_of_line? found]
  exact ⟨unbroken, found⟩

section Group

variable {items : List Item} {item : Item}

theorem Alternating.tail (alternating : Alternating (item :: items)) : Alternating items := by
  cases items with
  | nil => trivial
  | cons second rest => exact alternating.2

theorem Alternating.head (alternating : Alternating (item :: items)) :
    ∀ second ∈ items.head?, item.isSeparator ≠ second.isSeparator := by
  intro second first
  cases items with
  | nil => cases first
  | cons other rest =>
    cases first
    exact alternating.1

namespace Legible

theorem tail (legible : Legible (item :: items)) :
    Legible items where
  alternating := legible.alternating.tail
  whole := (forall_mem_cons.mp legible.whole).2
  lines := (forall_mem_cons.mp legible.lines).2

theorem cons (legible : Legible items) (whole : item.Whole)
    (lines : ∀ line ∈ item.kinds, line.Legible)
    (differs : ∀ second ∈ items.head?, item.isSeparator ≠ second.isSeparator) :
    Legible (item :: items) where
  alternating := by
    cases items with
    | nil => trivial
    | cons second rest => exact ⟨differs second rfl, legible.alternating⟩
  whole := by
    intro other member
    rcases mem_cons.mp member with rfl | member
    · exact whole
    · exact legible.whole other member
  lines := by
    intro other member
    rcases mem_cons.mp member with rfl | member
    · exact lines
    · exact legible.lines other member

theorem cons_separator (legible : Legible items) (self : (Line.separator line).Legible)
    (differs : ∀ second ∈ items.head?, second.isSeparator = false) :
    Legible (.separator (line ++ ['\n']) :: items) := by
  refine legible.cons (by simp [Item.Whole]) ?_ ?_
  · intro kind member
    rw [Item.kinds, dropLast_concat, mem_singleton] at member
    rw [member]
    exact self
  · intro second first
    rw [differs second first]
    exact Bool.noConfusion

theorem cons_paragraph {lines : List TagLine} (legible : Legible items) (someLine : lines ≠ [])
    (self : ∀ line ∈ lines, (Line.text line).Legible)
    (differs : ∀ second ∈ items.head?, second.isSeparator) :
    Legible (.paragraph lines :: items) := by
  refine legible.cons someLine ?_ ?_
  · intro kind member
    obtain ⟨line, inside, rfl⟩ := mem_map.mp member
    exact self line inside
  · intro second first
    rw [differs second first]
    exact Bool.noConfusion

/-- A line before elements that are read as themselves leaves them so. -/
theorem consLine {line : Line} (legible : Legible items) (self : line.Legible) :
    Legible (consLine line items) := by
  have single : ∀ found, line = .text found → ∀ other ∈ [found], (Line.text other).Legible := by
    rintro found rfl other member
    rw [mem_singleton.mp member]
    exact self
  cases line with
  | separator line =>
    cases items with
    | nil => exact legible.cons_separator self (by simp)
    | cons first items =>
      cases first with
      | separator other =>
        refine legible.tail.cons_separator self fun second next => ?_
        simpa [Item.isSeparator] using (legible.alternating.head second next).symm
      | paragraph lines => exact legible.cons_separator self (by simp [Item.isSeparator])
  | text line =>
    cases items with
    | nil => exact legible.cons_paragraph (by simp) (single line rfl) (by simp)
    | cons first items =>
      cases first with
      | separator other =>
        exact legible.cons_paragraph (by simp) (single line rfl) (by simp [Item.isSeparator])
      | paragraph lines =>
        refine legible.tail.cons_paragraph (by simp) ?_ fun second next => ?_
        · intro other member
          rcases mem_cons.mp member with rfl | member
          · exact self
          · exact legible.lines _ mem_cons_self _ (mem_map_of_mem member)
        · simpa [Item.isSeparator] using (legible.alternating.head second next).symm

end Legible

theorem legible_group {kinds : List Line} (self : ∀ kind ∈ kinds, kind.Legible) :
    Legible (group kinds) := by
  induction kinds with
  | nil => exact ⟨trivial, by simp [group], by simp [group]⟩
  | cons kind kinds ih =>
    have later := ih (forall_mem_cons.mp self).2
    exact later.consLine (self kind mem_cons_self)

theorem MakesUp.head {run : List Line} (made : MakesUp run item) (behind : List Line) :
    ∀ kind ∈ (run ++ behind).head?, kind.isSeparator = item.isSeparator := by
  intro kind first
  cases made <;> cases first <;> rfl

/-- Runs whose elements alternate are grouped to these elements. -/
theorem group_runs {runs : List (List Line)} (made : Forall₂ MakesUp runs items)
    (alternating : Alternating items) : group runs.flatten = items := by
  induction made with
  | nil => rfl
  | @cons run item runs items first made ih =>
    have later := ih alternating.tail
    have ends : ∀ kind ∈ runs.flatten.head?, kind.isSeparator = !item.isSeparator := by
      cases made with
      | nil => simp
      | @cons second other runs items next made =>
        have differs : other.isSeparator = !item.isSeparator := by
          have unlike := alternating.1
          revert unlike
          cases item.isSeparator <;> cases other.isSeparator <;> simp
        rw [← differs, flatten_cons]
        exact next.head _
    rw [flatten_cons]
    cases first with
    | separator line run => rw [group_separators line run ends, later]
    | paragraph line run => rw [group_texts line run ends, later]

theorem Item.Whole.makesUp (whole : item.Whole) : MakesUp item.kinds item := by
  cases item with
  | separator line =>
    obtain ⟨front, rfl⟩ := List.getLast?_eq_some_iff.mp whole
    rw [Item.kinds, dropLast_concat]
    exact .separator front []
  | paragraph lines =>
    obtain ⟨line, lines, rfl⟩ := exists_cons_of_ne_nil whole
    exact .paragraph line lines

/-- The lines of elements are grouped to these elements. -/
theorem group_kinds (alternating : Alternating items) (whole : ∀ item ∈ items, item.Whole) :
    group (items.flatMap Item.kinds) = items := by
  refine group_runs ?_ alternating
  rw [forall₂_map_left_iff]
  exact forall₂_same.mpr fun item member => (whole item member).makesUp

end Group

/-! ## Reading what was written -/

theorem legible_of_parse {text : Text} (read : parse text = .ok items) : Legible items := by
  obtain ⟨_, lines, kinds, unbroken, _, known, rfl⟩ := parse_eq_ok_iff.mp read
  refine legible_group fun kind member => ?_
  have listed : some kind ∈ lines.map line? := by
    rw [known]
    exact mem_map_of_mem member
  obtain ⟨line, inside, found⟩ := mem_map.mp listed
  exact legible_of_line? found (unbroken line inside)

def sourceText (items : List Item) : Text :=
  unlines ((items.flatMap Item.kinds).map Line.source)

/-- Elements that are read as themselves are read off their lines. -/
theorem parse_sourceText (legible : Legible items)
    (small : byteLength (sourceText items) ≤ inputLimit) :
    parse (sourceText items) = .ok items := by
  have self : ∀ line ∈ items.flatMap Item.kinds, line.Legible := by
    intro line member
    obtain ⟨item, inside, member⟩ := mem_flatMap.mp member
    exact legible.lines item inside line member
  refine parse_eq_ok_iff.mpr ⟨small, _, items.flatMap Item.kinds, ?_, rfl, ?_, ?_⟩
  · intro line member
    obtain ⟨kind, inside, rfl⟩ := mem_map.mp member
    exact (self kind inside).1
  · rw [map_map]
    exact map_congr_left fun kind member => (self kind member).2
  · exact (group_kinds legible.alternating legible.whole).symm

/-- A paragraph as it is written: its words filled into lines behind the lead of its first line. -/
def refillLines (style : Style) (lines : List TagLine) : List TagLine :=
  (((contextBehind style (leadOf lines)).wrapBehind (leadOf lines)).fillWords (allWords lines)).map
    fun line =>
    { lead := leadOf lines, contents := joinWords line }

def refill (style : Style) : Item → Item
  | .separator line => .separator line
  | .paragraph lines => .paragraph (refillLines style lines)

section Refilled

variable (style : Style) {lines : List TagLine}

theorem allWords_refillLines : allWords (refillLines style lines) = allWords lines := by
  have isWord : ∀ word ∈ allWords lines, IsWord word := isWord_of_mem_allWords
  rw [allWords, refillLines, flatMap_map, flatMap_def,
    map_congr_left fun line member =>
      words_joinWords (Wrap.isWord_of_mem_fillWords _ isWord line member), map_id',
    Wrap.flatten_fillWords]

theorem lead_of_mem_refillLines : ∀ line ∈ refillLines style lines, line.lead = leadOf lines := by
  intro line member
  obtain ⟨filled, _, rfl⟩ := mem_map.mp member
  rfl

section SomeWord

variable (someWord : allWords lines ≠ [])

include someWord

theorem refillLines_ne_nil : refillLines style lines ≠ [] := by
  rw [refillLines, ne_eq, map_eq_nil_iff]
  exact Wrap.fillWords_ne_nil _ someWord

theorem leadOf_refillLines : leadOf (refillLines style lines) = leadOf lines := by
  obtain ⟨line, rest, same⟩ := exists_cons_of_ne_nil (refillLines_ne_nil style someWord)
  have lead := lead_of_mem_refillLines style line (same ▸ mem_cons_self)
  rw [same]
  exact lead

/-- A paragraph is written as the lines it is filled into. -/
theorem composeItem_paragraph :
    composeItem style (.paragraph lines) =
      unlines ((refill style (.paragraph lines)).kinds.map Line.source) := by
  rw [composeItem, contiguous_nil _ _ (by rw [words_joinLines]; exact someWord), Wrap.lines,
    words_joinLines, refill, Item.kinds, refillLines, leadLines, unlines]
  simp only [map_map, flatMap_map, Function.comp_def, Line.source, contextBehind]

/-- What is written depends on the lead and the words alone. -/
theorem composeItem_refill :
    composeItem style (refill style (.paragraph lines)) = composeItem style (.paragraph lines) := by
  simp only [refill, composeItem, joinLines_eq, leadOf_refillLines style someWord,
    allWords_refillLines]

end SomeWord

end Refilled

theorem lead?_of_line? {found : TagLine} (text : line? line = some (.text found)) :
    lead? line = some (found.lead, found.contents) ∧ startsText found.contents := by
  unfold line? at text
  split at text
  · cases text
  · next lead body front =>
    split at text
    · cases text
    · split at text
      · next starts =>
        cases text
        exact ⟨front, starts⟩
      · cases text

section Paragraphs

variable {first : TagLine} {rest : List TagLine} (self : (Line.text first).Legible)

include self

theorem allWords_ne_nil : allWords (first :: rest) ≠ [] := by
  have starts := (lead?_of_line? self.2).2
  rw [allWords, flatMap_cons]
  exact append_ne_nil_of_left_ne_nil (words_ne_nil starts) _

theorem head?_allWords : (allWords (first :: rest)).head? = (words first.contents).head? := by
  have starts := (lead?_of_line? self.2).2
  obtain ⟨word, later, same⟩ := exists_cons_of_ne_nil (words_ne_nil starts)
  rw [allWords, flatMap_cons, same]
  rfl

/-- A line that a paragraph is filled into is read as itself. -/
theorem legible_refilled (style : Style) :
    ∀ line ∈ refillLines style (first :: rest), (Line.text line).Legible := by
  obtain ⟨found, starts⟩ := lead?_of_line? self.2
  intro line member
  obtain ⟨filled, inside, rfl⟩ := mem_map.mp member
  obtain ⟨word, more, rfl, free⟩ := Wrap.begin_of_mem_fillWords _ _ filled inside
  have isWord := Wrap.isWord_of_mem_fillWords _ isWord_of_mem_allWords _ inside
  obtain ⟨tail, joined, _⟩ := joinWords_cons word more
  have admits : Admits first.lead (word ++ tail) := by
    rcases free with free | front
    · exact admits_of_free found free tail
    · rw [head?_allWords self] at front
      exact admits_first found self.1 starts front tail
  constructor
  · intro broken
    rcases mem_append.mp broken with here | there
    · exact self.1 (mem_append_left _ here)
    · rcases mem_joinWords there with space | ⟨other, listed, broken⟩
      · cases space
      · cases (isWord other listed).solid _ broken
  · rw [Line.source, joined]
    exact line?_again found (isWord word mem_cons_self) admits

end Paragraphs

/-- Elements with the same separators, and paragraphs with the same words behind the lead of their
first line. -/
inductive Respelled : List Item → List Item → Prop where
  | nil : Respelled [] []
  | separator (line : Text) {items again : List Item} (later : Respelled items again) :
      Respelled (.separator line :: items) (.separator line :: again)
  | paragraph {lines refilled : List TagLine} {items again : List Item}
      (sameWords : allWords refilled = allWords lines)
      (sameLead : ∀ line ∈ refilled, line.lead = leadOf lines) (later : Respelled items again) :
      Respelled (.paragraph lines :: items) (.paragraph refilled :: again)

theorem respelled_refill (style : Style) (items : List Item) :
    Respelled items (items.map (refill style)) := by
  induction items with
  | nil => exact .nil
  | cons item items ih =>
    cases item with
    | separator line => exact .separator line ih
    | paragraph lines =>
      exact .paragraph (allWords_refillLines style) (lead_of_mem_refillLines style) ih

section Documents

variable (style : Style) {items : List Item}

/-- A legible paragraph has a first line, which is legible. -/
theorem Legible.exists_first {lines : List TagLine} (legible : Legible items)
    (member : .paragraph lines ∈ items) :
    ∃ first rest, lines = first :: rest ∧ (Line.text first).Legible := by
  obtain ⟨first, rest, rfl⟩ := exists_cons_of_ne_nil (legible.whole _ member)
  exact ⟨first, rest, rfl, legible.lines _ member _ mem_cons_self⟩

theorem isSeparator_refill (item : Item) : (refill style item).isSeparator = item.isSeparator := by
  cases item <;> rfl

theorem Alternating.refill (alternating : Alternating items) :
    Alternating (items.map (refill style)) := by
  induction items with
  | nil => trivial
  | cons first rest ih =>
    cases rest with
    | nil => trivial
    | cons second rest =>
      refine ⟨?_, ih alternating.2⟩
      rw [isSeparator_refill, isSeparator_refill]
      exact alternating.1

theorem Legible.refill (legible : Legible items) : Legible (items.map (refill style)) := by
  have each : ∀ item ∈ items.map (LineComment.refill style),
      item.Whole ∧ ∀ line ∈ item.kinds, line.Legible := by
    refine forall_mem_map.mpr fun item inside => ?_
    cases item with
    | separator line => exact ⟨legible.whole _ inside, legible.lines _ inside⟩
    | paragraph lines =>
      obtain ⟨first, rest, rfl, self⟩ := legible.exists_first inside
      exact ⟨refillLines_ne_nil style (allWords_ne_nil self),
        forall_mem_map.mpr (legible_refilled self style)⟩
  exact ⟨legible.alternating.refill style, fun _ inside => (each _ inside).1,
    fun _ inside => (each _ inside).2⟩

/-- What is written are the lines of the elements as they are filled. -/
theorem compose_eq_sourceText (legible : Legible items) :
    compose style items = sourceText (items.map (refill style)) := by
  have each : ∀ item ∈ items,
      composeItem style item = unlines ((refill style item).kinds.map Line.source) := by
    intro item member
    cases item with
    | separator line =>
      obtain ⟨front, rfl⟩ := List.getLast?_eq_some_iff.mp (legible.whole _ member)
      simp [composeItem, LineComment.refill, Item.kinds, Line.source, unlines]
    | paragraph lines =>
      obtain ⟨first, rest, rfl, self⟩ := legible.exists_first member
      exact composeItem_paragraph style (allWords_ne_nil self)
  rw [compose, flatMap_def, map_congr_left each, ← flatMap_def, sourceText]
  simp only [unlines, flatMap_map, flatMap_assoc]

theorem compose_refill (legible : Legible items) :
    compose style (items.map (refill style)) = compose style items := by
  rw [compose, compose, flatMap_map, flatMap_def, flatMap_def]
  refine congrArg _ (map_congr_left fun item member => ?_)
  cases item with
  | separator line => rfl
  | paragraph lines =>
    obtain ⟨first, rest, rfl, self⟩ := legible.exists_first member
    exact composeItem_refill style (allWords_ne_nil self)

theorem parse_compose (legible : Legible items)
    (small : byteLength (compose style items) ≤ inputLimit) :
    parse (compose style items) = .ok (items.map (refill style)) := by
  rw [compose_eq_sourceText style legible] at small ⊢
  exact parse_sourceText (legible.refill style) small

end Documents

/-! ## Formatting -/

/-- The source of elements ends with one line break, behind a line that is not empty. -/
theorem exists_last (legible : Legible items) (someItem : items ≠ []) :
    ∃ front, sourceText items = front ++ ['\n'] ∧ endsLine front = false := by
  obtain ⟨front, item, rfl⟩ : ∃ front item, items = front ++ [item] :=
    ⟨_, _, (dropLast_concat_getLast someItem).symm⟩
  have inside : item ∈ front ++ [item] := by simp
  have someLine : item.kinds ≠ [] := by
    have whole := legible.whole item inside
    cases item with
    | separator line => simp [Item.kinds]
    | paragraph lines =>
      rw [Item.kinds, ne_eq, map_eq_nil_iff]
      exact whole
  obtain ⟨above, line, lines⟩ : ∃ above line, item.kinds = above ++ [line] :=
    ⟨_, _, (dropLast_concat_getLast someLine).symm⟩
  obtain ⟨unbroken, found⟩ := legible.lines item inside line (by simp [lines])
  have someChar : line.source ≠ [] := by
    intro noneThere
    rw [noneThere] at found
    cases found
  refine ⟨unlines ((front.flatMap Item.kinds ++ above).map Line.source) ++ line.source, ?_,
    endsLine_append someChar unbroken⟩
  simp [sourceText, unlines, lines]

theorem ne_nil_of_parse {text : Text} (read : parse text = .ok items) (someChar : text ≠ []) :
    items ≠ [] := by
  rintro rfl
  obtain ⟨_, lines, kinds, _, rfl, known, same⟩ := parse_eq_ok_iff.mp read
  cases kinds with
  | nil =>
    rw [map_nil, map_eq_nil_iff] at known
    exact someChar (by rw [known, unlines_nil])
  | cons kind kinds =>
    obtain ⟨_, ⟨_, found, _⟩ | ⟨_, found, _⟩⟩ := group_head kind kinds
    · rw [found] at same
      cases same
    · rw [found] at same
      cases same

theorem formatLines_eq_ok {text : Text} :
    formatLines style text .lineComment = .ok formatted ↔
      ∃ items, parse text = .ok items ∧ compose style items = formatted := by
  cases read : parse text with
  | error error => simp [formatLines, read, bind, Except.bind]
  | ok items => simp [formatLines, read, bind, Except.bind, pure, Except.pure]

/-- What is written ends with one line break and is written again as it is. -/
theorem formatLines_again {text : Text} (someChar : text ≠ [])
    (done : formatLines style text .lineComment = .ok formatted) :
    ∃ front, formatted = front ++ ['\n'] ∧ endsLine front = false ∧
      (byteLength formatted ≤ inputLimit →
        formatLines style formatted .lineComment = .ok formatted) := by
  obtain ⟨items, read, rfl⟩ := formatLines_eq_ok.mp done
  have legible := legible_of_parse read
  have someItem : items.map (refill style) ≠ [] := by
    simpa using ne_nil_of_parse read someChar
  obtain ⟨front, source, ends⟩ := exists_last (legible.refill style) someItem
  refine ⟨front, (compose_eq_sourceText style legible).trans source, ends, fun small => ?_⟩
  exact formatLines_eq_ok.mpr
    ⟨_, parse_compose style legible small, compose_refill style legible⟩

theorem format_again {text : Text} (done : format style .lineComment text = .ok formatted)
    (small : byteLength formatted < inputLimit) :
    format style .lineComment formatted = .ok formatted := by
  cases ends : endsLine text with
  | true =>
    have someChar : text ≠ [] := by
      rintro rfl
      cases ends
    rw [format, if_pos ends] at done
    obtain ⟨front, rfl, _, again⟩ := formatLines_again someChar done
    rw [format, if_pos (by simp [endsLine])]
    exact again (Nat.le_of_lt small)
  | false =>
    obtain ⟨whole, filled, rfl⟩ := (format_of_open ends).mp done
    obtain ⟨front, rfl, openEnded, again⟩ := formatLines_again (by simp) filled
    have dropped : dropLineBreak (front ++ ['\n']) = front := by
      simp [dropLineBreak, endsLine]
    rw [dropped] at small ⊢
    refine (format_of_open openEnded).mpr ⟨_, again ?_, dropped⟩
    rw [byteLength_append]
    exact small

/-- What is written for a line comment is read as the elements it was written from, with the same
separators and with the same words behind the same leads, and is written again as it is; so
formatting a second time changes nothing. -/
theorem reread_written (style : Style) :
    (∀ text items, parse text = .ok items →
        byteLength (compose style items) ≤ inputLimit →
        ∃ again, parse (compose style items) = .ok again ∧ Respelled items again ∧
          compose style again = compose style items) ∧
      ∀ text formatted, format style .lineComment text = .ok formatted →
        byteLength formatted < inputLimit →
        format style .lineComment formatted = .ok formatted := by
  constructor
  · intro text items read small
    have legible := legible_of_parse read
    exact ⟨_, parse_compose style legible small, respelled_refill style items,
      compose_refill style legible⟩
  · intro text formatted done small
    exact format_again done small

/-- Two paragraphs, the first of them behind punctuation without a space. -/
def twoParagraphs : Text := "//aa -b cc\n//\n# dd ee ff".toList

theorem parse_twoParagraphs : parse (twoParagraphs ++ ['\n']) = .ok
    [.paragraph [{ lead := "//".toList, contents := "aa -b cc".toList }], .separator "//\n".toList,
      .paragraph [{ lead := "# ".toList, contents := "dd ee ff".toList }]] := by
  refine parse_eq_ok_iff.mpr ⟨by decide, ["//aa -b cc".toList, "//".toList, "# dd ee ff".toList],
    [.text { lead := "//".toList, contents := "aa -b cc".toList }, .separator "//".toList,
      .text { lead := "# ".toList, contents := "dd ee ff".toList }], ?_, rfl, rfl, rfl⟩
  unfold Unbroken
  decide

theorem reread_twoParagraphs :
    (∃ items again, parse (twoParagraphs ++ ['\n']) = .ok items ∧
        parse (compose { width := 8 } items) = .ok again ∧ Respelled items again ∧
        compose { width := 8 } again = compose { width := 8 } items) ∧
      format { width := 8 } .lineComment twoParagraphs =
        .ok "//aa -b\n//cc\n//\n# dd ee\n# ff".toList ∧
      format { width := 8 } .lineComment "//aa -b\n//cc\n//\n# dd ee\n# ff".toList =
        .ok "//aa -b\n//cc\n//\n# dd ee\n# ff".toList := by
  obtain ⟨rereads, settles⟩ := reread_written { width := 8 }
  have formatted : format { width := 8 } .lineComment twoParagraphs =
      .ok "//aa -b\n//cc\n//\n# dd ee\n# ff".toList :=
    (format_of_open rfl).mpr ⟨_, formatLines_eq_ok.mpr ⟨_, parse_twoParagraphs, rfl⟩, rfl⟩
  obtain ⟨again, found⟩ := rereads _ _ parse_twoParagraphs (by decide +kernel)
  exact ⟨⟨_, again, parse_twoParagraphs, found⟩, formatted, settles _ _ formatted (by decide)⟩

end Document.LineComment

end Reflow
