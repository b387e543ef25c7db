import Mathlib.Data.List.TakeDrop
import Reflow.Proofs.PatternReading
import Reflow.Regex.Cache

/-!
# Anchored patterns

A pattern is compiled inside of a group that follows the condition that the text starts. The text
around it is put there before anything is read, so the group holds the pattern only if the pattern
has a meaning of its own: its tokens are then the same in front of the closing parenthesis
(`tokens_wrapped`), they never close a group that they did not open (`Nesting.take_around`), and
every match begins where the text does (`Cache.matches_at_front`).
-/

namespace Reflow.Regex

open List Option

/-! ## Readers in front of a closing parenthesis -/

/-- A reader that succeeds does so too with a closing parenthesis behind its text, and leaves the
parenthesis there. -/
def SparesClosing {α : Type} (reader : Reader α) : Prop :=
  ∀ (rest : Text) (value : α) (after : Text), reader rest = some (value, after) →
    reader (rest ++ [')']) = some (value, after ++ [')'])

theorem SparesClosing.map {α β : Type} {reader : Reader α} (spares : SparesClosing reader)
    (make : α → β) :
    SparesClosing fun rest => do
      let (value, after) ← reader rest
      return (make value, after) := by
  intro rest value after read
  simp only [bind_eq_bind, bind_eq_some_iff] at read ⊢
  obtain ⟨⟨found, behind⟩, taken, same⟩ := read
  cases same
  exact ⟨_, spares _ _ _ taken, rfl⟩

/-- Another character than the parenthesis stands in the text itself. -/
theorem exists_of_closing {rest inner : Text} {c : Char} (begins : rest ++ [')'] = c :: inner)
    (other : c ≠ ')') : ∃ front, rest = c :: front := by
  cases rest with
  | nil =>
    rw [nil_append, List.cons.injEq] at begins
    exact absurd begins.1.symm other
  | cons d rest =>
    rw [cons_append, List.cons.injEq] at begins
    exact ⟨rest, by rw [begins.1]⟩

/-- A run that ends within a text, or that a parenthesis ends, stays the same. -/
theorem span_closing {test : Char → Bool} {rest front back : Text}
    (cut : rest.span test = (front, back)) (ends : test ')' = false ∨ back ≠ []) :
    (rest ++ [')']).span test = (front, back ++ [')']) := by
  rw [span_eq_takeWhile_dropWhile, Prod.mk.injEq] at cut ⊢
  obtain ⟨rfl, rfl⟩ := cut
  induction rest with
  | nil =>
    have refused := ends.resolve_right (by simp)
    simp [refused]
  | cons c rest ih =>
    cases taken : test c with
    | false => simp [taken]
    | true =>
      rw [dropWhile_cons_of_pos taken] at ends
      simp [taken, ih ends]

/-- A run that goes to the end of a text and takes a parenthesis takes it too. -/
theorem span_closing_of_nil {test : Char → Bool} {rest front : Text}
    (cut : rest.span test = (front, [])) (goes : test ')') :
    (rest ++ [')']).span test = (front ++ [')'], []) := by
  rw [span_eq_takeWhile_dropWhile, Prod.mk.injEq] at cut ⊢
  obtain ⟨rfl, noneLeft⟩ := cut
  induction rest with
  | nil => simp [goes]
  | cons c rest ih =>
    cases taken : test c with
    | false => simp [taken] at noneLeft
    | true =>
      rw [dropWhile_cons_of_pos taken] at noneLeft
      simp [taken, ih noneLeft]

theorem sparesClosing_hexEscape (digits : Nat) : SparesClosing (hexEscape digits) := by
  intro rest value after read
  unfold hexEscape at read
  split at read
  · next inner =>
    rw [cons_append, hexEscape]
    cases cut : inner.span (· != '\x7d') with
    | mk code back =>
      rw [cut] at read
      cases code with
      | nil => cases read
      | cons c code =>
        cases back with
        | nil => cases read
        | cons d back =>
          rw [span_closing cut (.inr (cons_ne_nil _ _))]
          simp only [bind_eq_bind, bind_eq_some_iff] at read
          obtain ⟨number, found, c, valid, same⟩ := read
          cases same
          simp [found, valid]
  · next other =>
    split at read
    · cases read
    · next long =>
      simp only [bind_eq_bind, bind_eq_some_iff] at read
      obtain ⟨number, found, c, valid, same⟩ := read
      cases same
      unfold hexEscape
      split
      · next inner begins =>
        obtain ⟨front, rfl⟩ := exists_of_closing begins (by decide)
        exact absurd rfl (other front)
      · rw [if_neg (by simp; omega), take_append_of_le_length (by omega),
          drop_append_of_le_length (by omega)]
        simp [found, valid]

theorem sparesClosing_boundaryKind : SparesClosing boundaryKind := by
  intro rest value after read
  unfold boundaryKind at read
  split at read
  · next inner =>
    rw [cons_append, boundaryKind]
    have stops : ((fun c : Char => c.isAlpha || c == '-') ')') = false := rfl
    cases cut : inner.span (fun c => c.isAlpha || c == '-') with
    | mk name back =>
      rw [cut] at read
      rw [span_closing cut (.inl stops)]
      cases name with
      | nil =>
        cases read
        rfl
      | cons c name =>
        split at read
        · next same => cases same
        · next same =>
          cases same
          simp only [cons_append]
          split_ifs at read ⊢ <;> cases read <;> rfl
        · cases read
  · next other =>
    cases read
    unfold boundaryKind
    split
    · next inner begins =>
      obtain ⟨front, rfl⟩ := exists_of_closing begins (by decide)
      exact absurd rfl (other front)
    · rfl

theorem sparesClosing_escape : SparesClosing escape := by
  intro rest value after read
  cases rest with
  | nil => cases read
  | cons c rest =>
    have hex := fun digits => (sparesClosing_hexEscape digits).map Escape.char
    rw [cons_append]
    unfold escape at read
    dsimp only at read
    split at read
    any_goals
      cases read
      rfl
    · exact hex 2 _ _ _ read
    · exact hex 4 _ _ _ read
    · exact hex 8 _ _ _ read
    · exact sparesClosing_boundaryKind.map Escape.anchor _ _ _ read
    · split at read
      · next itself =>
        cases read
        rw [escape, if_pos itself]
        all_goals assumption
      · cases read

/-! ## Bracketed classes -/

/-- The front of a bracket behind its negation. -/
def bracketFront (negated : Bool) (rest : Text) : Bracket × Text :=
  match rest.span (· == '-') with
  | ([], ']' :: after) => ({ negated, parts := [⟨.single ']', 0⟩] }, after)
  | (hyphens, after) => ({ negated, parts := hyphens.map fun c => ⟨.single c, 0⟩ }, after)

theorem bracketFront_closing (negated : Bool) (rest : Text) :
    bracketFront negated (rest ++ [')']) =
      ((bracketFront negated rest).1, (bracketFront negated rest).2 ++ [')']) := by
  unfold bracketFront
  cases cut : rest.span (· == '-') with
  | mk hyphens back =>
    rw [span_closing cut (.inl rfl)]
    rcases hyphens with _ | ⟨c, hyphens⟩
    · rcases back with _ | ⟨d, back⟩
      · rfl
      · by_cases bracket : d = ']'
        · subst bracket
          rfl
        · simp [bracket]
    · rfl

theorem openBracket_eq (rest : Text) :
    openBracket rest =
      if rest.head? = some '^' then bracketFront true rest.tail else bracketFront false rest := by
  unfold openBracket
  split
  next negated behind same =>
  trans bracketFront negated behind
  · unfold bracketFront
    cases cut : behind.span (· == '-') with
    | mk hyphens back =>
      rcases hyphens with _ | ⟨c, hyphens⟩
      · rcases back with _ | ⟨d, back⟩
        · rfl
        · by_cases bracket : d = ']'
          · subst bracket
            rfl
          · simp [bracket]
      · rfl
  · split at same
    · cases same
      rfl
    · next other =>
      cases same
      rw [if_neg]
      intro caret
      obtain ⟨tail, rfl⟩ := List.head?_eq_some_iff.1 caret
      exact other tail rfl

theorem openBracket_closing (rest : Text) :
    openBracket (rest ++ [')']) = ((openBracket rest).1, (openBracket rest).2 ++ [')']) := by
  rw [openBracket_eq, openBracket_eq]
  cases rest with
  | nil => rfl
  | cons c rest =>
    rw [cons_append, List.head?_cons, List.head?_cons]
    split
    · exact bracketFront_closing true rest
    · exact bracketFront_closing false (c :: rest)

/-- A named class behind its colon and its negation. -/
def classNamed (negated : Bool) (rest : Text) : Option (CharClass × Text) :=
  match rest.span (· != ':') with
  | (name, ':' :: ']' :: after) => do
    let members ← namedClass? name
    return (if negated then .complement members else members, after)
  | _ => none

theorem classNamed_closing (negated : Bool) (rest : Text) :
    classNamed negated (rest ++ [')']) =
      (classNamed negated rest).map fun found => (found.1, found.2 ++ [')']) := by
  unfold classNamed
  cases cut : rest.span (· != ':') with
  | mk name back =>
    rcases back with _ | ⟨c, _ | ⟨d, back⟩⟩
    · rw [span_closing_of_nil cut rfl]
      rfl
    · rw [span_closing cut (.inr (by simp))]
      simp
    · rw [span_closing cut (.inr (by simp)), cons_append, cons_append]
      by_cases colon : c = ':'
      · subst colon
        by_cases bracket : d = ']'
        · subst bracket
          cases found : namedClass? name <;> simp [found]
        · simp [bracket]
      · simp [colon]

theorem namedClass_eq (rest : Text) :
    namedClass rest =
      if rest.head? = some ':' then
        if rest.tail.head? = some '^' then classNamed true rest.tail.tail
        else classNamed false rest.tail
      else none := by
  unfold namedClass
  split
  · next rest =>
    rw [if_pos List.head?_cons, tail_cons]
    split
    next negated behind same =>
    trans classNamed negated behind
    · rfl
    · split at same
      · cases same
        rfl
      · next other =>
        cases same
        rw [if_neg]
        intro caret
        obtain ⟨tail, rfl⟩ := List.head?_eq_some_iff.1 caret
        exact other tail rfl
  · next other =>
    rw [if_neg]
    intro colon
    obtain ⟨tail, rfl⟩ := List.head?_eq_some_iff.1 colon
    exact other tail rfl

theorem namedClass_closing (rest : Text) :
    namedClass (rest ++ [')']) =
      (namedClass rest).map fun found => (found.1, found.2 ++ [')']) := by
  rw [namedClass_eq, namedClass_eq]
  rcases rest with _ | ⟨c, _ | ⟨d, rest⟩⟩
  · rfl
  · by_cases colon : c = ':'
    · subst colon
      rfl
    · simp [colon]
  · by_cases colon : c = ':'
    · subst colon
      by_cases caret : d = '^'
      · subst caret
        exact classNamed_closing true rest
      · simpa [caret] using classNamed_closing false (d :: rest)
    · simp [colon]

theorem sparesClosing_bracketMember : SparesClosing bracketMember := by
  intro rest value after read
  unfold bracketMember at read
  split at read
  · cases read
  · next rest =>
    rw [cons_append, bracketMember]
    cases escaped : escape rest with
    | none =>
      rw [escaped] at read
      cases read
    | some found =>
      obtain ⟨kind, behind⟩ := found
      rw [sparesClosing_escape _ _ _ escaped]
      rw [escaped] at read
      cases kind <;> cases read <;> rfl
  · next c rest other =>
    cases read
    rw [cons_append, bracketMember]
    exact other

theorem sparesClosing_bracketRange : SparesClosing bracketRange := by
  intro rest value after read
  unfold bracketRange at read ⊢
  simp only [bind_eq_bind, bind_eq_some_iff] at read ⊢
  obtain ⟨⟨first, behind⟩, member, read⟩ := read
  refine ⟨_, sparesClosing_bracketMember _ _ _ member, ?_⟩
  rcases behind with _ | ⟨c, _ | ⟨d, behind⟩⟩
  · cases read
  · by_cases hyphen : c = '-'
    · subst hyphen
      cases read
    · simp [hyphen] at read ⊢
      simp [← read]
  · by_cases hyphen : c = '-'
    · subst hyphen
      simp only [cons_append, drop_succ_cons, drop_zero] at read ⊢
      split at read
      · next alone =>
        cases read
        rw [if_pos alone]
        rfl
      · next ranged =>
        rw [if_neg ranged, bind_eq_some_iff]
        obtain ⟨⟨last, behind'⟩, member', read⟩ := bind_eq_some_iff.1 read
        refine ⟨_, sparesClosing_bracketMember _ _ _ member', ?_⟩
        cases first with
        | inr members => cases read
        | inl low =>
          cases last with
          | inr members => cases read
          | inl high =>
            dsimp only at read ⊢
            split at read
            · next ordered =>
              cases read
              rw [if_pos ordered]
            · cases read
    · simp [hyphen] at read ⊢
      simp [← read]

/-- A class is read with a closing parenthesis behind it, given room for one more character. -/
theorem bracketClass_closing {size : Nat} {current : Bracket} {outer : List Bracket}
    {rest after : Text} {part : Part}
    (read : bracketClass current outer size rest = some (part, after)) :
    bracketClass current outer (size + 1) (rest ++ [')']) = some (part, after ++ [')']) := by
  fun_induction bracketClass current outer size rest with
  | case1 | case2 | case11 => cases read
  | case3 current size rest =>
    cases read
    rfl
  | case4 current size rest parent outer ih => exact ih read
  | case5 current outer size rest members behind named ih =>
    rw [cons_append, bracketClass, namedClass_closing, named]
    exact ih read
  | case6 current outer size rest unnamed inner behind opened ih =>
    rw [cons_append, bracketClass, namedClass_closing, unnamed, map_none,
      openBracket_closing, opened]
    exact ih read
  | case7 current outer size rest ih | case8 current outer size rest ih
  | case9 current outer size rest ih => exact ih read
  | case10 current outer size rest someChar close open_ inter diff symm members behind ranged ih =>
    rw [bracketClass, sparesClosing_bracketRange _ _ _ ranged]
    · exact ih read
    · simp
    all_goals
      intro inner begins
      obtain ⟨front, rfl⟩ := exists_of_closing begins (by decide)
    · exact close front rfl
    · exact open_ front rfl
    all_goals obtain ⟨front, rfl⟩ := exists_of_closing (List.cons.inj begins).2 (by decide)
    · exact inter front rfl
    · exact diff front rfl
    · exact symm front rfl

/-! ## Repetitions and groups -/

theorem dropWhile_closing {test : Char → Bool} (stops : test ')' = false) (rest : Text) :
    (rest ++ [')']).dropWhile test = rest.dropWhile test ++ [')'] := by
  induction rest with
  | nil => simp [stops]
  | cons c rest ih => cases taken : test c <;> simp [taken, ih]

theorem sparesClosing_decimal : SparesClosing decimal := by
  intro rest value after read
  unfold decimal at read ⊢
  have blank : Text.isBlank ')' = false := rfl
  rw [dropWhile_closing blank]
  cases cut : (rest.dropWhile Text.isBlank).span Char.isDigit with
  | mk digits back =>
    rw [span_closing cut (.inl rfl)]
    rw [cut] at read
    dsimp only at read ⊢
    split at read
    · cases read
    · next number =>
      cases read
      rw [if_neg number, dropWhile_closing blank]

theorem sparesClosing_counted : SparesClosing counted := by
  intro rest value after read
  unfold counted at read ⊢
  simp only [bind_eq_bind, bind_eq_some_iff] at read ⊢
  obtain ⟨⟨least, behind⟩, first, read⟩ := read
  refine ⟨_, sparesClosing_decimal _ _ _ first, ?_⟩
  dsimp only at read ⊢
  split at read
  · cases read
    rfl
  · cases read
    rfl
  · next rest other =>
    obtain ⟨⟨most, behind'⟩, second, read⟩ := bind_eq_some_iff.1 read
    have spared := sparesClosing_decimal _ _ _ second
    rw [cons_append]
    split
    · next same => cases same
    · next same =>
      obtain ⟨front, rfl⟩ := exists_of_closing (List.cons.inj same).2 (by decide)
      exact absurd rfl (other front)
    · next same =>
      cases same
      rw [spared, bind_some]
      split at read
      · next same =>
        cases same
        dsimp only [cons_append]
        split at read
        · next ordered =>
          cases read
          exact if_pos ordered
        · cases read
      · cases read
    · next noneOther => exact absurd rfl (noneOther (rest ++ [')']))
  · cases read

theorem lazyMark_closing (rest : Text) :
    lazyMark (rest ++ [')']) = ((lazyMark rest).1, (lazyMark rest).2 ++ [')']) := by
  rcases rest with _ | ⟨c, rest⟩
  · rfl
  · by_cases mark : c = '?'
    · subst mark
      rfl
    · simp [lazyMark, mark]

theorem sparesClosing_switches (value : Bool) (seen : List (Char × Bool)) :
    SparesClosing (switches value seen) := by
  intro rest found after read
  fun_induction switches value seen rest with
  | case1 | case2 | case5 | case6 | case8 => cases read
  | case3 value seen c rest ends known =>
    cases read
    rw [cons_append, switches, if_pos ends, if_neg known]
  | case4 value seen rest clears goes ih =>
    have head : (rest ++ [')']).head? = rest.head? := by
      cases rest with
      | nil => cases read
      | cons c rest => rfl
    rw [cons_append, switches, if_neg goes, if_pos rfl, head, if_pos clears]
    exact ih read
  | case7 value seen c rest goes other switch fresh ih =>
    rw [cons_append, switches, if_neg goes, if_neg other, if_pos switch, if_neg fresh]
    exact ih read

theorem sparesClosing_groupName : SparesClosing groupName := by
  intro rest value after read
  unfold groupName at read ⊢
  cases cut : rest.span (· != '>') with
  | mk front back =>
    rw [cut] at read
    rcases front with _ | ⟨first, name⟩
    · cases read
    · rcases back with _ | ⟨c, back⟩
      · cases read
      · rw [span_closing cut (.inr (cons_ne_nil _ _)), cons_append]
        dsimp only at read ⊢
        split at read
        · next named =>
          cases read
          rw [if_pos named]
        · cases read

theorem sparesClosing_groupFront : SparesClosing groupFront := by
  intro rest value after read
  have named := sparesClosing_groupName.map fun name => Token.numbered (some name)
  have switched := (sparesClosing_switches true []).map fun found =>
    if found.2 then Token.opening found.1 else .switches found.1
  unfold groupFront at read
  split at read
  · exact named _ _ _ read
  · exact named _ _ _ read
  · next rest long short =>
    have spared := switched _ _ _ read
    rw [cons_append, groupFront]
    · exact spared
    · intro inner begins
      obtain ⟨front, rfl⟩ := exists_of_closing begins (by decide)
      obtain ⟨front, rfl⟩ := exists_of_closing (List.cons.inj begins).2 (by decide)
      exact long front rfl
    · intro inner begins
      obtain ⟨front, rfl⟩ := exists_of_closing begins (by decide)
      exact short front rfl
  · next plain =>
    cases read
    rw [groupFront]
    all_goals
      intro inner begins
      obtain ⟨front, rfl⟩ := exists_of_closing begins (by decide)
      exact plain front rfl

theorem sparesClosing_token : SparesClosing token := by
  intro rest value after read
  cases rest with
  | nil => cases read
  | cons c rest =>
    rw [cons_append]
    unfold token at read
    dsimp only at read
    split at read
    any_goals
      cases read
      rfl
    · exact sparesClosing_groupFront _ _ _ read
    · simp only [bind_eq_bind, bind_eq_some_iff] at read
      obtain ⟨⟨part, behind⟩, bracket, same⟩ := read
      cases same
      have spared := bracketClass_closing bracket
      rw [token, openBracket_closing, length_append, length_singleton]
      dsimp only
      rw [spared]
      rfl
    any_goals
      cases read
      rw [token, lazyMark_closing]
    · simp only [bind_eq_bind, bind_eq_some_iff] at read
      obtain ⟨⟨bounds, behind⟩, count, same⟩ := read
      cases same
      rw [token, sparesClosing_counted _ _ _ count, bind_eq_bind, bind_some]
      dsimp only
      rw [lazyMark_closing]
      rfl
    · cases escaped : escape rest with
      | none =>
        rw [escaped] at read
        cases read
      | some found =>
        obtain ⟨kind, behind⟩ := found
        rw [token, sparesClosing_escape _ _ _ escaped]
        rw [escaped] at read
        cases kind <;> cases read <;> rfl
    · cases read
      rw [token]
      all_goals assumption

/-- The tokens of a pattern in front of a closing parenthesis. -/
theorem tokensWithin_closing {size more : Nat} (enough : size < more) {rest : Text}
    {found : List Token} (read : tokensWithin size rest = some found) :
    tokensWithin more (rest ++ [')']) = some (found ++ [.closing]) := by
  fun_induction tokensWithin size rest generalizing more found with
  | case1 size =>
    cases read
    obtain ⟨more, rfl⟩ : ∃ fewer, more = fewer + 1 := ⟨more - 1, by omega⟩
    rw [nil_append, tokensWithin, token]
    · cases more <;> rfl
    · simp
  | case2 => cases read
  | case3 size rest someChar ih =>
    obtain ⟨more, rfl⟩ : ∃ fewer, more = fewer + 1 := ⟨more - 1, by omega⟩
    simp only [bind_eq_bind, bind_eq_some_iff] at read
    obtain ⟨⟨first, behind⟩, taken, others, later, same⟩ := read
    cases same
    rw [tokensWithin, sparesClosing_token _ _ _ taken, bind_eq_bind, bind_some]
    · dsimp only
      rw [ih _ (by omega) later]
      rfl
    · simp

theorem tokens_wrapped {pattern : Text} {found : List Token} (read : tokens pattern = some found) :
    tokens ("^(?:".toList ++ pattern ++ [')']) =
      some (.caret :: .opening [] :: (found ++ [.closing])) := by
  have room : pattern.length < pattern.length + 3 := by omega
  have inner := tokensWithin_closing room read
  have size : ("^(?:".toList ++ pattern ++ [')']).length = pattern.length + 3 + 1 + 1 := by
    simp
  rw [tokens, size]
  show ((tokensWithin (pattern.length + 3) (pattern ++ [')'])).bind fun others =>
    some (Token.opening [] :: others)).bind (fun others => some (Token.caret :: others)) = _
  rw [inner]
  rfl

/-! ## Groups around a pattern -/

/-- The open groups with one more around all of them. -/
def Nesting.around (nesting : Nesting) (outermost : Group) : Nesting :=
  { nesting with groups := nesting.groups ++ [outermost] }

/-- Tokens that can be taken by themselves do not reach a group around them. -/
theorem Nesting.take_around {nesting next : Nesting} {token : Token}
    (taken : nesting.take token = some next) (outermost : Group) :
    (nesting.around outermost).take token = some (next.around outermost) := by
  obtain ⟨groups, numbered⟩ := nesting
  cases groups with
  | nil => cases taken
  | cons group outer =>
    cases token with
    | closing =>
      cases outer with
      | nil => cases taken
      | cons parent outer =>
        cases taken
        rfl
    | repetition least most marked =>
      rw [around, cons_append]
      rw [take] at taken ⊢
      dsimp only at taken ⊢
      cases pieces : group.pieces with
      | nil =>
        rw [pieces] at taken
        cases taken
      | cons piece pieces' =>
        rw [pieces] at taken
        dsimp only at taken ⊢
        split at taken
        · next repeatable =>
          cases taken
          rw [if_pos repeatable]
          rfl
        · cases taken
    | _ =>
      cases taken
      rfl

theorem Nesting.foldlM_take_around {nesting last : Nesting} {tokens : List Token}
    (taken : tokens.foldlM Nesting.take nesting = some last) (outermost : Group) :
    tokens.foldlM Nesting.take (nesting.around outermost) = some (last.around outermost) := by
  induction tokens generalizing nesting with
  | nil =>
    cases taken
    rfl
  | cons token tokens ih =>
    rw [foldlM_cons, bind_eq_bind, bind_eq_some_iff] at taken
    obtain ⟨next, first, later⟩ := taken
    rw [foldlM_cons, take_around first, bind_eq_bind, bind_some]
    exact ih later

/-- A well formed pattern in the group of the wrapping denotes a sequence that begins with the
condition that the text starts. -/
theorem exists_of_wrapped {pattern : Text} {term : Term} (formed : (termOfPattern? pattern).isSome)
    (denoted : termOfPattern? ("^(?:".toList ++ pattern ++ [')']) = some term) :
    ∃ inner, term = .concat [.anchor .textStart, inner] := by
  obtain ⟨own, found⟩ := isSome_iff_exists.1 formed
  obtain ⟨list, read, found⟩ := bind_eq_some_iff.1 found
  rw [termOfPattern?, tokens_wrapped read, bind_some] at denoted
  rw [termOfTokens?, bind_eq_bind] at found denoted
  obtain ⟨nesting, taken, found⟩ := bind_eq_some_iff.1 found
  obtain ⟨⟨groups, numbered⟩, folded, denoted⟩ := bind_eq_some_iff.1 denoted
  split at found
  · next group single =>
    obtain ⟨groups', numbered'⟩ := nesting
    cases single
    have wrapped := Nesting.foldlM_take_around taken { pieces := [⟨.anchor .textStart, 0, true⟩] }
    have front : (Token.caret :: Token.opening [] :: (list ++ [Token.closing])).foldlM
        Nesting.take {} = (list ++ [Token.closing]).foldlM Nesting.take
          (Nesting.around {} { pieces := [⟨.anchor .textStart, 0, true⟩] }) := rfl
    rw [front, foldlM_append, wrapped] at folded
    cases folded
    dsimp only at denoted
    split at denoted
    · cases denoted
      exact ⟨group.close.term, rfl⟩
    · cases denoted
  · cases found

theorem isAnchored_concat (inner : Term) :
    (Term.concat [.anchor .textStart, inner]).regex.isAnchored := by
  have parts : Term.concat [.anchor .textStart, inner] =
      .ofFactors (.anchor .textStart :: [inner].flatMap Term.factors) := rfl
  rw [parts]
  cases [inner].flatMap Term.factors with
  | nil => rfl
  | cons first others => rfl

/-! ## Matches -/

variable {machine : Machine}

theorem before_of_anchored (anchored : machine.anchored) {text : Text} {found : Match}
    (matched : machine.find text = some found) : found.before = [] := by
  unfold Machine.find at matched
  cases text with
  | nil =>
    rw [Machine.findFrom] at matched
    split at matched
    · cases matched
      rfl
    · cases matched
  | cons c rest =>
    rw [Machine.findFrom] at matched
    split at matched
    · cases matched
      rfl
    · rw [if_pos anchored] at matched
      cases matched

theorem anchored_of_formed {pattern : String} (formed : (termOfPattern? pattern.toList).isSome)
    (compiled : anchored? pattern = some machine) : machine.anchored := by
  rw [anchored?, machineOfPattern?, bind_eq_bind] at compiled
  obtain ⟨term, denoted, compiled⟩ := bind_eq_some_iff.1 compiled
  obtain ⟨inner, rfl⟩ := exists_of_wrapped formed denoted
  split at compiled
  · cases compiled
    exact isAnchored_concat inner
  · cases compiled

/-! ## Patterns that were compiled before -/

namespace Cache

/-- Caches that can come of compiling patterns one after the other, from an empty one. -/
inductive Filled : Cache → Prop where
  | empty : Filled {}
  | compile {cache : Cache} (filled : Filled cache) (pattern : String) :
      Filled (cache.compile? pattern).2

/-- What is kept for a pattern is what it compiles to. -/
theorem Filled.anchored?_eq {cache : Cache} (filled : cache.Filled) {pattern : String}
    (kept : cache.entries.lookup pattern = some machine) : anchored? pattern = some machine := by
  induction filled with
  | empty => cases kept
  | @compile cache filled other ih =>
    rw [compile?] at kept
    split at kept
    · exact ih kept
    · split at kept
      · next compiled =>
        rw [lookup_cons] at kept
        split at kept
        · next same =>
          cases kept
          rw [eq_of_beq same, compiled]
        · exact ih kept
      · exact ih kept

/-- Whether a pattern was compiled before makes no difference. -/
theorem Filled.compile?_eq {cache : Cache} (filled : cache.Filled) (pattern : String) :
    (cache.compile? pattern).1 = anchored? pattern := by
  rw [compile?]
  split
  · next kept => exact (filled.anchored?_eq kept).symm
  · split
    · next compiled => exact compiled.symm
    · next refused => exact refused.symm

end Cache

end Reflow.Regex

namespace Reflow

open Text

/-- What an attempt to match a pattern takes goes from the cursor to the end of what its machine
finds. -/
theorem Parser.matchAtom_regex {parser : Parser} {visit : Matcher} {index : Nat}
    {pattern : String} (found : parser.grammar.atoms[index]? = some (.regex pattern))
    {machine : Machine} (compiled : Regex.anchored? pattern = some machine) {cursor stop : Cursor}
    {state after : ParserState} {node : Node}
    (matched : parser.matchAtom visit index cursor state = (.matched node stop, after)) :
    ∃ place, machine.find cursor.rest = some place ∧
      stop = cursor.advance (place.before ++ place.matched) place.after ∧
      node = .text (.ofSpan (cursor.spanTo stop)) := by
  rw [matchAtom, found] at matched
  dsimp only at matched
  rw [compiled] at matched
  dsimp only at matched
  cases taken : matchRegex machine cursor with
  | none =>
    rw [taken] at matched
    cases matched
  | some behind =>
    rw [taken] at matched
    cases matched
    obtain ⟨place, search, same⟩ := Option.map_eq_some_iff.1 taken
    exact ⟨place, search, same.symm, rfl⟩

/-- A machine that a cache gives for a pattern cuts a text into what is before its match, the match
and what is after it, and the node of an atom with that pattern holds the first two. Nothing is
before the match if the pattern is well formed by itself, so the match is then at the front and
the node holds exactly the match. -/
theorem Regex.Cache.matches_at_front {cache : Cache} (filled : cache.Filled) {pattern : String}
    {machine : Machine} (compiled : (cache.compile? pattern).1 = some machine) :
    (∀ text found, machine.find text = some found →
      text = found.before ++ found.matched ++ found.after ∧
      ((termOfPattern? pattern.toList).isSome → found.before = [])) ∧
    ∀ (parser : Parser) (visit : Parser.Matcher) (index : Nat) (cursor stop : Cursor)
      (state after : ParserState) (node : Node),
      parser.grammar.atoms[index]? = some (.regex pattern) → cursor.In parser.input →
      parser.matchAtom visit index cursor state = (.matched node stop, after) →
      ∃ found, machine.find cursor.rest = some found ∧
        node = .text (.ofSpan (cursor.spanTo stop)) ∧
        (cursor.spanTo stop).slice parser.input = found.before ++ found.matched := by
  rw [filled.compile?_eq] at compiled
  constructor
  · intro text found matched
    refine ⟨(Machine.split_of_find matched).symm, fun formed => ?_⟩
    exact before_of_anchored (anchored_of_formed formed compiled) matched
  · rintro parser visit index cursor stop state after node here ⟨before, reached⟩ matched
    obtain ⟨found, search, rfl, same⟩ := Parser.matchAtom_regex here compiled matched
    refine ⟨found, search, same, ?_⟩
    have input : parser.input = before ++ (found.before ++ found.matched) ++ found.after := by
      rw [List.append_assoc, Machine.split_of_find search]
      exact reached.restEq
    have offset : cursor.offset = byteLength before := by
      rw [reached.offsetEq, Nat.zero_add]
    rw [Cursor.spanTo, Cursor.advance, offset, input]
    exact slice_append before (found.before ++ found.matched) found.after

/-- A parser for the mark of a line comment. -/
def commentMark : Parser where
  grammar := { atoms := #[.regex "//+|#+"], root := 0 }
  input := "## y".toList

/-- The expression that its pattern stands for, at the front of a text. -/
def commentMarks : Regex :=
  .seq (.anchor .textStart) (.alt (.seq (.set (.single '/')) (.plus true (.set (.single '/'))))
    (.plus true (.set (.single '#'))))

/-- An alternation stays at the front as a whole, the first time and when it was compiled before. -/
theorem Regex.Cache.alternation_at_front :
    ∃ machine, ((({} : Cache).compile? "//+|#+").2.compile? "//+|#+").1 = some machine ∧
      machine.find "x // y".toList = none ∧
      (∀ text found, machine.find text = some found → found.before = []) ∧
      ∃ found, machine.find "## y".toList = some found ∧
        Span.slice ⟨0, 2⟩ "## y".toList = found.before ++ found.matched := by
  have filled : (({} : Cache).compile? "//+|#+").2.Filled := .compile .empty "//+|#+"
  have compiled : anchored? "//+|#+" = some (.ofRegex commentMarks) :=
    anchored?_of_term (by decide +kernel)
  have search := Machine.find_ofRegex commentMarks rfl rfl
  have taken : commentMark.matchAtom (commentMark.tryAtom 0) 0 ⟨0, "## y".toList⟩ {} =
      (.matched (.text (.ofSpan ⟨0, 2⟩)) ⟨2, " y".toList⟩, {}) := by
    have here : commentMark.grammar.atoms[0]? = some (.regex "//+|#+") := rfl
    rw [Parser.matchAtom, here]
    dsimp only
    rw [compiled]
    dsimp only
    rw [matchRegex, search]
    rfl
  rw [← filled.compile?_eq] at compiled
  have front := matches_at_front filled compiled
  refine ⟨_, compiled, ?_, fun text found matched => ?_, ?_⟩
  · rw [search]
    rfl
  · exact (front.1 text found matched).2 (by decide +kernel)
  · obtain ⟨found, matched, -, held⟩ := front.2 commentMark _ 0 _ _ _ _ _ rfl
      (Cursor.In.start _) taken
    exact ⟨found, matched, held⟩

/-- What a pattern stands for whose parentheses close the group around it. -/
def strayGroup : Regex :=
  .alt (.seq (.anchor .textStart) (.set (.single 'a'))) (.set (.single 'b'))

/-- Such a pattern is compiled too, and its second half matches anywhere. -/
theorem Regex.Cache.unbalanced_not_at_front :
    ¬∀ (pattern : String) (machine : Machine) (text : Text) (found : Match),
      (({} : Cache).compile? pattern).1 = some machine → machine.find text = some found →
      found.before = [] := by
  intro always
  have compiled : anchored? "a)|(?:b" = some (.ofRegex strayGroup) :=
    anchored?_of_term (by decide +kernel)
  have search : (Machine.ofRegex strayGroup).find "xb".toList = some ⟨['x'], ['b'], []⟩ := by
    have first := Machine.runAt_ofRegex strayGroup rfl
    unfold Machine.find
    rw [show "xb".toList = ['x', 'b'] from rfl, Machine.findFrom, first]
    simp only [show strayGroup.ends ⟨none, ['x', 'b']⟩ = [] from rfl]
    rw [Machine.findFrom, first]
    rfl
  rw [← Filled.empty.compile?_eq] at compiled
  cases always _ _ _ _ compiled search

end Reflow
