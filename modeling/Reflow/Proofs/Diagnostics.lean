import Mathlib.Data.List.Induction
import Reflow.Proofs.RepeatedCalls
import Reflow.Proofs.Totality

/-!
# What a parser takes note of

Plain evaluation lists every expectation that is not met. A parser keeps only the furthest ones, and
of those at most eight different ones (`Furthest.noteAll_eq`); and where the memo answers, it takes
note of nothing. So what a visit takes note of is some of the expectations of plain evaluation. In
effect it is all of them if every atom is always tried in the same frame (`Parser.reports_visit`):
then whatever the memo keeps from being noted was noted before. An atom that fails inside a
lookahead first is not noted there, and not noted outside it later.
-/

namespace Reflow

open List Furthest

variable {cursor : Cursor} {frame : Frame} {furthest : Furthest} {misses : List Miss} {atom : Nat}
  {parser : Parser} {state : ParserState} {miss : Miss} {grammar : Grammar}

/-! ## Taking note -/

namespace Furthest

/-- Takes note of expectations that were not met. -/
def noteAll (furthest : Furthest) (misses : List Miss) : Furthest :=
  misses.foldl (fun furthest miss => furthest.note miss.position miss.expectation) furthest

@[simp] theorem noteAll_nil (furthest : Furthest) : furthest.noteAll [] = furthest := rfl

theorem noteAll_append (furthest : Furthest) (first second : List Miss) :
    furthest.noteAll (first ++ second) = (furthest.noteAll first).noteAll second :=
  foldl_append

theorem noteAll_cons (furthest : Furthest) (miss : Miss) (misses : List Miss) :
    furthest.noteAll (miss :: misses) =
      (furthest.note miss.position miss.expectation).noteAll misses := rfl

def keep (kept : List String) (expectation : String) : List String :=
  if maxExpectations ≤ kept.length ∨ expectation ∈ kept then kept else kept ++ [expectation]

theorem note_of_lt {position : Nat} (expectation : String) (behind : position < furthest.position) :
    furthest.note position expectation = furthest := by
  rw [note, if_pos behind]

theorem note_of_eq (furthest : Furthest) (expectation : String) :
    furthest.note furthest.position expectation =
      ⟨furthest.position, keep furthest.expected expectation⟩ := by
  simp only [note, Nat.lt_irrefl, if_false, keep, Bool.or_eq_true, decide_eq_true_eq,
    contains_iff_mem]
  split <;> rfl

theorem note_of_gt {position : Nat} (expectation : String) (ahead : furthest.position < position) :
    furthest.note position expectation = ⟨position, [expectation]⟩ := by
  rw [note, if_neg (Nat.lt_asymm ahead), if_pos ahead]
  rfl

/-- Taking note of an expectation changes nothing: it lies behind, it was noted before, or enough
was. -/
def Absorbs (furthest : Furthest) (miss : Miss) : Prop :=
  miss.position < furthest.position ∨
    miss.position = furthest.position ∧
      (maxExpectations ≤ furthest.expected.length ∨ miss.expectation ∈ furthest.expected)

theorem note_of_absorbs (absorbs : furthest.Absorbs miss) :
    furthest.note miss.position miss.expectation = furthest := by
  rcases absorbs with behind | ⟨here, known⟩
  · exact note_of_lt _ behind
  · rw [here, note_of_eq, keep, if_pos known]

theorem keep_full_or_mem (kept : List String) (expectation : String) :
    maxExpectations ≤ (keep kept expectation).length ∨ expectation ∈ keep kept expectation := by
  unfold keep
  split
  · next known => exact known
  · exact .inr (by simp)

theorem absorbs_note (furthest : Furthest) (position : Nat) (expectation : String) :
    (furthest.note position expectation).Absorbs ⟨position, expectation⟩ := by
  rcases Nat.lt_trichotomy position furthest.position with behind | rfl | ahead
  · rw [note_of_lt _ behind]
    exact .inl behind
  · rw [note_of_eq]
    exact .inr ⟨rfl, keep_full_or_mem _ _⟩
  · rw [note_of_gt _ ahead]
    exact .inr ⟨rfl, .inr mem_cons_self⟩

/-- What changes nothing now changes nothing later. -/
theorem Absorbs.note (absorbs : furthest.Absorbs miss) (position : Nat) (expectation : String) :
    (furthest.note position expectation).Absorbs miss := by
  rcases Nat.lt_trichotomy position furthest.position with behind | rfl | ahead
  · rw [note_of_lt _ behind]
    exact absorbs
  · rw [note_of_eq]
    refine absorbs.imp_right fun ⟨here, known⟩ => ⟨here, ?_⟩
    unfold keep
    split
    · exact known
    · next other =>
      rcases known with full | member
      · exact absurd (.inl full) other
      · exact .inr (mem_append_left _ member)
  · rw [note_of_gt _ ahead]
    refine .inl ?_
    rcases absorbs with behind | ⟨here, _⟩
    · exact Nat.lt_trans behind ahead
    · exact here ▸ ahead

theorem Absorbs.noteAll (absorbs : furthest.Absorbs miss) (misses : List Miss) :
    (furthest.noteAll misses).Absorbs miss := by
  induction misses generalizing furthest with
  | nil => exact absorbs
  | cons other misses ih => exact ih (absorbs.note other.position other.expectation)

theorem absorbs_noteAll (furthest : Furthest) (member : miss ∈ misses) :
    (furthest.noteAll misses).Absorbs miss := by
  induction misses generalizing furthest with
  | nil => cases member
  | cons other misses ih =>
    rw [noteAll_cons]
    rcases mem_cons.mp member with rfl | later
    · exact (absorbs_note furthest miss.position miss.expectation).noteAll misses
    · exact ih _ later

theorem noteAll_of_absorbs (absorbs : ∀ miss ∈ misses, furthest.Absorbs miss) :
    furthest.noteAll misses = furthest := by
  induction misses with
  | nil => rfl
  | cons miss misses ih =>
    rw [noteAll_cons, note_of_absorbs (absorbs miss mem_cons_self)]
    exact ih (forall_mem_cons.mp absorbs).2

end Furthest

/-! ## What the expectations amount to -/

def reach (misses : List Miss) : Nat := (misses.map (·.position)).foldr max 0

/-- What was expected at a place: the first different expectations, in the order of evaluation. -/
def expectedAt (misses : List Miss) (position : Nat) : List String :=
  ((misses.filter (·.position == position)).map (·.expectation)).eraseDups.take maxExpectations

/-- What is to be reported of a parse that stopped at an offset. -/
def diagnosis (misses : List Miss) (stop : Nat) : ParseError :=
  if misses.isEmpty || reach misses < stop then .unmatched stop "end of input"
  else .unmatched (reach misses) (" or ".intercalate (expectedAt misses (reach misses)))

theorem reach_append (misses : List Miss) (miss : Miss) :
    reach (misses ++ [miss]) = max (reach misses) miss.position := by
  induction misses with
  | nil => simp [reach]
  | cons other misses ih =>
    simp only [reach, cons_append, map_cons, foldr_cons] at ih ⊢
    rw [ih, Nat.max_assoc]

theorem position_le_reach (member : miss ∈ misses) : miss.position ≤ reach misses := by
  induction misses with
  | nil => cases member
  | cons other misses ih =>
    simp only [reach, map_cons, foldr_cons] at ih ⊢
    rcases mem_cons.mp member with rfl | later
    · exact Nat.le_max_left _ _
    · exact Nat.le_trans (ih later) (Nat.le_max_right _ _)

/-- The first different expectations with one more behind them. -/
theorem take_eraseDups_append (expectations : List String) (expectation : String) :
    ((expectations ++ [expectation]).eraseDups).take maxExpectations =
      keep (expectations.eraseDups.take maxExpectations) expectation := by
  rw [eraseDups_append]
  by_cases known : expectation ∈ expectations
  · have nothing : [expectation].removeAll expectations = [] := by simp [List.removeAll, known]
    rw [nothing, eraseDups_nil, append_nil, keep]
    split
    · rfl
    · next other =>
      rw [not_or] at other
      refine absurd ?_ other.2
      rw [take_of_length_le]
      · exact mem_eraseDups.mpr known
      · have short := other.1
        rw [length_take] at short
        omega
  · have new : [expectation].removeAll expectations = [expectation] := by
      simp [List.removeAll, known]
    have alone : [expectation].eraseDups = [expectation] := by simp [eraseDups_cons]
    have fresh : expectation ∉ expectations.eraseDups.take maxExpectations :=
      fun member => known (mem_eraseDups.mp (mem_of_mem_take member))
    rw [new, alone, keep, take_append]
    split
    · next full =>
      have enough := full.resolve_right fresh
      rw [length_take] at enough
      have noneLeft : maxExpectations - expectations.eraseDups.length = 0 := by omega
      rw [noneLeft, take_zero, append_nil]
    · next other =>
      have short := (not_or.mp other).1
      rw [length_take] at short
      rw [take_of_length_le (l := [expectation])]
      rw [length_singleton]
      omega

/-- Taking note keeps the furthest place, and there the first different expectations. -/
theorem Furthest.noteAll_eq (misses : List Miss) :
    noteAll {} misses = ⟨reach misses, expectedAt misses (reach misses)⟩ := by
  induction misses using List.reverseRecOn with
  | nil => rfl
  | append_singleton misses miss ih =>
    rw [noteAll_append, ih, noteAll_cons, noteAll_nil, reach_append]
    rcases Nat.lt_trichotomy miss.position (reach misses) with behind | here | ahead
    · rw [note_of_lt _ behind, Nat.max_eq_left (Nat.le_of_lt behind)]
      have other : (miss.position == reach misses) = false :=
        beq_false_of_ne (Nat.ne_of_lt behind)
      simp [expectedAt, other]
    · rw [Nat.max_eq_left (Nat.le_of_eq here)]
      have same := note_of_eq ⟨reach misses, expectedAt misses (reach misses)⟩ miss.expectation
      rw [← here] at same ⊢
      rw [same]
      simp only [expectedAt, filter_append, map_append, filter_cons,
        beq_self_eq_true, if_true, filter_nil, map_cons, map_nil,
        take_eraseDups_append]
    · rw [note_of_gt _ ahead, Nat.max_eq_right (Nat.le_of_lt ahead)]
      have noneThere : misses.filter (·.position == miss.position) = [] := by
        rw [filter_eq_nil_iff]
        intro other member same
        have bound := position_le_reach member
        rw [eq_of_beq same] at bound
        omega
      simp [expectedAt, noneThere, eraseDups_cons, maxExpectations]

theorem expectedAt_reach_ne_nil (someMiss : misses ≠ []) :
    expectedAt misses (reach misses) ≠ [] := by
  obtain ⟨miss, member, top⟩ : ∃ miss ∈ misses, miss.position = reach misses := by
    induction misses with
    | nil => exact absurd rfl someMiss
    | cons first rest ih =>
      rcases Nat.lt_or_ge first.position (reach rest) with less | most
      · have more : rest ≠ [] := by
          rintro rfl
          simp [reach] at less
        obtain ⟨miss, member, top⟩ := ih more
        refine ⟨miss, mem_cons_of_mem _ member, top.trans ?_⟩
        exact (Nat.max_eq_right (Nat.le_of_lt less)).symm
      · exact ⟨first, mem_cons_self, (Nat.max_eq_left most).symm⟩
  have kept : miss.expectation ∈
      ((misses.filter (·.position == reach misses)).map (·.expectation)).eraseDups := by
    rw [mem_eraseDups]
    exact mem_map.mpr ⟨miss, mem_filter.mpr ⟨member, by simp [top]⟩, rfl⟩
  intro empty
  rw [expectedAt, take_eq_nil_iff] at empty
  rcases empty with zero | noneKept
  · cases zero
  · rw [noneKept] at kept
    cases kept

/-- A parser reports what it took note of. -/
theorem Parser.unmatched_eq (noted : state.furthest = noteAll {} misses) (stop : Nat) :
    unmatched state stop = diagnosis misses stop := by
  rw [noteAll_eq] at noted
  have empty : (expectedAt misses (reach misses)).isEmpty = misses.isEmpty := by
    cases misses with
    | nil => rfl
    | cons miss rest =>
      rw [isEmpty_eq_false_iff.mpr (expectedAt_reach_ne_nil (by simp))]
      rfl
  rw [unmatched, diagnosis, noted, empty]

/-! ## Frames -/

namespace Grammar

/-- An atom is tried in a frame when the root is matched. -/
inductive Tries (grammar : Grammar) : Nat → Frame → Prop where
  | root : Tries grammar grammar.root (Frame.within {} (grammar.contextName? grammar.root))
  | part {index part : Nat} {frame : Frame} {atom : Atom} (tried : Tries grammar index frame)
      (found : grammar.atoms[index]? = some atom) (member : part ∈ atom.children) :
      Tries grammar part (frame.inside grammar atom)

/-- Every atom is tried in one frame only, as far as reports go: nothing is reported in a frame that
is silent. -/
def Steady (grammar : Grammar) : Prop :=
  ∀ (atom : Nat) (first second : Frame), grammar.Tries atom first → grammar.Tries atom second →
    first = second ∨ first.silent ∧ second.silent

end Grammar

theorem Frame.silent_within (silent : frame.silent) (name : Option String) :
    (frame.within name).silent := by
  cases name <;> exact silent

theorem Frame.silent_inside (silent : frame.silent) (grammar : Grammar) (atom : Atom) :
    (frame.inside grammar atom).silent := by
  cases atom with
  | capture label inner => exact silent_within silent _
  | rule inner => exact silent_within silent _
  | lookahead inner positive => rfl
  | _ => exact silent

namespace Plain

theorem perform_silent {visit : Nat → Cursor → Trace}
    (sub : ∀ atom cursor, (visit atom cursor).2 = []) (silent : frame.silent)
    (script : Script Tree) : (perform visit frame script).2 = [] := by
  induction script with
  | done ending =>
    cases ending with
    | missed cursor what => simp [perform, finish, miss, silent]
    | _ => rfl
  | part atom cursor onMatch onFailure matched failed =>
    have first := sub atom cursor
    rw [perform]
    generalize visit atom cursor = trace at first ⊢
    obtain ⟨outcome, misses⟩ := trace
    cases first
    cases outcome with
    | matched tree stop => simpa [after] using matched tree stop
    | failed => simpa [after] using failed
    | aborted error => rfl

/-- Nothing is reported in a silent frame. -/
theorem visit_silent (grammar : Grammar) (limits : Limits) (fuel depth : Nat)
    (silent : frame.silent) (index : Nat) (cursor : Cursor) :
    (visit grammar limits fuel depth frame index cursor).2 = [] := by
  induction fuel generalizing depth frame index cursor with
  | zero => rfl
  | succ fuel ih =>
    rw [visit]
    cases found : grammar.atoms[index]? with
    | none => rw [attempt, found]
    | some atom =>
      rw [attempt_eq limits _ depth frame cursor found]
      split
      · rfl
      · refine perform_silent (fun part place => ?_) silent _
        exact ih _ (Frame.silent_inside silent grammar atom) part place

/-- Visitors that agree where the first one settles perform a script alike where it settles. -/
theorem perform_of_settled {visit visit' : Nat → Cursor → Trace}
    (agree : ∀ atom cursor, (visit atom cursor).1.isSettled →
      visit' atom cursor = visit atom cursor) (frame : Frame) {script : Script Tree}
    (settled : (perform visit frame script).1.isSettled) :
    perform visit' frame script = perform visit frame script := by
  induction script with
  | done ending => rfl
  | part atom cursor onMatch onFailure matched failed =>
    have first := agree atom cursor
    rw [perform] at settled ⊢
    rw [perform]
    generalize visit atom cursor = trace at first settled ⊢
    obtain ⟨outcome, misses⟩ := trace
    cases outcome with
    | matched tree stop =>
      rw [first rfl]
      exact congrArg (after misses) (matched tree stop settled)
    | failed =>
      rw [first rfl]
      exact congrArg (after misses) (failed settled)
    | aborted error => rw [first settled]

theorem visit_succ_unlimited (fuel depth : Nat) (frame : Frame) {index : Nat} {atom : Atom}
    (cursor : Cursor) (found : grammar.atoms[index]? = some atom) :
    visit grammar .unlimited (fuel + 1) depth frame index cursor =
      perform (visit grammar .unlimited fuel (depth + atom.levels) (frame.inside grammar atom))
        frame (.ofAtom grammar cursor atom) := by
  rw [visit, attempt_unlimited _ depth frame cursor found]

/-- More fuel changes nothing about a settled evaluation, and neither does another depth if no depth
is too deep. -/
theorem visit_of_settled {fuel more : Nat} (enough : fuel ≤ more) (depth depth' : Nat)
    (frame : Frame) (index : Nat) (cursor : Cursor)
    (settled : (visit grammar .unlimited fuel depth frame index cursor).1.isSettled) :
    visit grammar .unlimited more depth' frame index cursor =
      visit grammar .unlimited fuel depth frame index cursor := by
  induction fuel generalizing more depth depth' frame index cursor with
  | zero => cases settled
  | succ fuel ih =>
    obtain ⟨more, rfl⟩ : ∃ fewer, more = fewer + 1 := ⟨more - 1, by omega⟩
    cases found : grammar.atoms[index]? with
    | none => rw [visit, visit, attempt, attempt, found]
    | some atom =>
      rw [visit_succ_unlimited fuel depth frame cursor found] at settled ⊢
      rw [visit_succ_unlimited more depth' frame cursor found]
      refine perform_of_settled (fun part place done => ?_) frame settled
      exact ih (by omega) _ _ _ part place done

end Plain

/-! ## Scripts that report the same -/

def Ending.miss? {α : Type} : Ending α → Option (Cursor × String)
  | missed cursor what => some (cursor, what)
  | _ => none

/-- Two scripts try the same and miss the same, whatever the values of the parts. -/
inductive Script.Alike {α β : Type} : Script α → Script β → Prop where
  | done {ending : Ending α} {ending' : Ending β} (same : ending.miss? = ending'.miss?) :
      Alike (.done ending) (.done ending')
  | part {atom : Nat} {cursor : Cursor} {onMatch : α → Cursor → Script α} {onFailure : Script α}
      {onMatch' : β → Cursor → Script β} {onFailure' : Script β}
      (matched : ∀ value value' stop, Alike (onMatch value stop) (onMatch' value' stop))
      (failed : Alike onFailure onFailure') :
      Alike (.part atom cursor onMatch onFailure) (.part atom cursor onMatch' onFailure')

namespace Script

variable {α β : Type}

theorem Related.alike {now : Unit} {script : Script α} {script' : Script β}
    (related : Related (· = ·) (fun _ _ _ => True) now script script') :
    Alike script script' := by
  induction related with
  | done related =>
    refine .done ?_
    cases related <;> rfl
  | part _ _ matched failed =>
    exact .part (fun _ _ stop => matched stop rfl trivial) (failed rfl)

theorem alike_ofAtom (grammar : Grammar) (cursor : Cursor) (atom : Atom) :
    Alike (ofAtom grammar cursor atom : Script α) (ofAtom grammar cursor atom : Script β) :=
  Related.alike (related_ofAtom (fun _ _ _ _ _ _ => trivial) grammar cursor atom : Related _ _ () _ _)

end Script

/-! ## Reports of a visit -/

/-- Plain evaluation of an atom settles, if nothing but fuel bounds it, and misses expectations on
the way. -/
def Grammar.Misses (grammar : Grammar) (frame : Frame) (atom : Nat) (cursor : Cursor)
    (misses : List Miss) : Prop :=
  ∃ fuel depth,
    (Plain.visit grammar .unlimited fuel depth frame atom cursor).1.isSettled ∧
      (Plain.visit grammar .unlimited fuel depth frame atom cursor).2 = misses

theorem Grammar.Misses.unique {first second : List Miss}
    (left : grammar.Misses frame atom cursor first)
    (right : grammar.Misses frame atom cursor second) : first = second := by
  obtain ⟨fuel, depth, settled, rfl⟩ := left
  obtain ⟨fuel', depth', settled', rfl⟩ := right
  rw [← Plain.visit_of_settled (Nat.le_max_left fuel fuel') depth 0 frame atom cursor settled,
    ← Plain.visit_of_settled (Nat.le_max_right fuel fuel') depth' 0 frame atom cursor settled']

theorem Grammar.Misses.eq_nil (missed : grammar.Misses frame atom cursor misses)
    (silent : frame.silent) : misses = [] := by
  obtain ⟨fuel, depth, _, rfl⟩ := missed
  exact Plain.visit_silent grammar .unlimited fuel depth silent atom cursor

namespace Parser

/-- What the memo answers for was taken note of. -/
def Noted (parser : Parser) (state : ParserState) : Prop :=
  ∀ {atom : Nat} {cursor : Cursor} {entry : Option (Node × Cursor)} {frame : Frame}
    {misses : List Miss}, cursor.In parser.input →
    state.memo[(atom, cursor.offset)]? = some entry → parser.grammar.Tries atom frame →
    parser.grammar.Misses frame atom cursor misses →
    ∀ miss ∈ misses, state.furthest.Absorbs miss

/-- From one state to another, note was taken of some of the expectations that were missed, and in a
steady grammar of all of them. -/
structure Reported (parser : Parser) (state after : ParserState) (misses : List Miss) : Prop where
  partly : ∃ kept, kept.Sublist misses ∧ after.furthest = state.furthest.noteAll kept
  fully : parser.grammar.Steady → parser.Noted state →
    parser.Noted after ∧ after.furthest = state.furthest.noteAll misses

namespace Reported

variable {parser : Parser} {state after : ParserState} {misses : List Miss}

/-- Taking note of everything, while the memo stays as it is. -/
theorem of_note (memo : after.memo = state.memo)
    (furthest : after.furthest = state.furthest.noteAll misses) :
    parser.Reported state after misses := by
  refine ⟨⟨misses, .refl misses, furthest⟩, fun _ noted => ⟨?_, furthest⟩⟩
  intro atom cursor entry frame others inside found tried missed miss member
  rw [memo] at found
  rw [furthest]
  exact (noted inside found tried missed miss member).noteAll misses

theorem trans {middle : ParserState} {first second : List Miss}
    (front : parser.Reported state middle first) (back : parser.Reported middle after second) :
    parser.Reported state after (first ++ second) := by
  constructor
  · obtain ⟨kept, inside, noted⟩ := front.partly
    obtain ⟨kept', inside', noted'⟩ := back.partly
    exact ⟨kept ++ kept', inside.append inside', by rw [noted', noted, noteAll_append]⟩
  · intro holds noted
    obtain ⟨noted', furthest⟩ := front.fully holds noted
    obtain ⟨noted'', furthest'⟩ := back.fully holds noted'
    exact ⟨noted'', by rw [furthest', furthest, noteAll_append]⟩

/-- Reports depend on nothing but the memo and the furthest failure. -/
theorem congr {state' after' : ParserState} (reported : parser.Reported state after misses)
    (memo : state'.memo = state.memo) (furthest : state'.furthest = state.furthest)
    (memo' : after'.memo = after.memo) (furthest' : after'.furthest = after.furthest) :
    parser.Reported state' after' misses := by
  have front : parser.Reported state' state [] := of_note memo.symm furthest.symm
  have back : parser.Reported after after' [] := of_note memo' furthest'
  simpa using (front.trans reported).trans back

end Reported

theorem reported_finish (parser : Parser) (frame : Frame) {ending : Ending Node}
    {ending' : Ending Tree} (same : ending.miss? = ending'.miss?) (state : ParserState) :
    parser.Reported state (finish frame ending state).2 (Plain.finish frame ending').2 := by
  refine .of_note (memo_finish frame ending state) ?_
  cases ending with
  | missed cursor what =>
    cases ending' with
    | missed cursor' what' =>
      cases same
      simp only [finish, expect, Plain.finish, Plain.miss]
      split <;> rfl
    | _ => cases same
  | _ =>
    cases ending' with
    | missed cursor' what' => cases same
    | _ => rfl

/-- Where a visit finishes and plain evaluation settles, note is taken of what the latter misses. -/
def Reports (parser : Parser) (visit : Visitor) : Prop :=
  ∀ {frame : Frame} {atom : Nat} {cursor : Cursor} {state : ParserState}
    {entry : Option (Node × Cursor)} {misses : List Miss}, cursor.In parser.input →
    parser.Sound state → parser.grammar.Tries atom frame →
    (visit frame atom cursor state).1 = recorded entry →
    parser.grammar.Misses frame atom cursor misses →
    parser.Reported state (visit frame atom cursor state).2 misses

/-- A visit that finishes ends as plain evaluation does where that settles. -/
theorem Sound.shows_settled (sound : parser.Sound state) (inside : cursor.In parser.input)
    {fuel : Nat} (finished : (parser.visit fuel frame atom cursor state).1.isSettled)
    {less depth : Nat} {frame' : Frame}
    (settled : (Plain.visit parser.grammar .unlimited less depth frame' atom
      cursor).1.isSettled) :
    Shows (parser.visit fuel frame atom cursor state).2.arena
      (parser.visit fuel frame atom cursor state).1
      (Plain.visit parser.grammar .unlimited less depth frame' atom cursor).1 := by
  have shown := (faithful_visit parser (Nat.le_refl fuel) 0 frame {} atom inside sound).shows
    finished
  rw [parser.grammar.visit_approx_eval .unlimited less depth frame' atom cursor settled] at shown
  exact shown

theorem reported_perform {fuel : Nat} (reports : parser.Reports (parser.visit fuel)) {inner : Frame}
    {parts : List Nat} {faults : String → Prop}
    (tried : ∀ part ∈ parts, parser.grammar.Tries part inner) {script : Script Node}
    {script' : Script Tree} (alike : script.Alike script')
    (all : script.All (fun part place => part ∈ parts ∧ place.In parser.input)
      (·.In parser.input) faults) (sound : parser.Sound state) {entry : Option (Node × Cursor)}
    (finished : (perform (parser.visit fuel) inner frame script state).1 = recorded entry)
    {less depth : Nat}
    (settled : (Plain.perform (Plain.visit parser.grammar .unlimited less depth inner) frame
      script').1.isSettled) :
    parser.Reported state
      (perform (parser.visit fuel) inner frame script state).2
      (Plain.perform (Plain.visit parser.grammar .unlimited less depth inner) frame script').2 := by
  induction alike generalizing state with
  | done same => exact reported_finish parser frame same state
  | @part atom cursor onMatch onFailure onMatch' onFailure' _ _ matched failed =>
    obtain ⟨⟨member, inside⟩, onward, otherwise⟩ := all
    have report := @reports inner atom cursor state
    have reached : parser.Sound (parser.visit fuel inner atom cursor state).2 :=
      sound.visit inside fuel inner
    have takes : ∀ node stop, (parser.visit fuel inner atom cursor state).1 = .matched node stop →
        ∃ text, cursor.Takes text stop := fun _ _ => sound.takes_of_visit inside
    have missed : (Plain.visit parser.grammar .unlimited less depth inner atom
        cursor).1.isSettled → parser.grammar.Misses inner atom cursor
          (Plain.visit parser.grammar .unlimited less depth inner atom cursor).2 :=
      fun done => ⟨less, depth, done, rfl⟩
    have shown := fun finished => @Sound.shows_settled cursor inner atom parser state sound inside
      fuel finished less depth inner
    rw [perform] at finished ⊢
    rw [Plain.perform] at settled ⊢
    generalize parser.visit fuel inner atom cursor state = answer at *
    obtain ⟨outcome, after⟩ := answer
    generalize Plain.visit parser.grammar .unlimited less depth inner atom cursor = trace at *
    obtain ⟨plain, misses⟩ := trace
    -- A part that does not settle would be the end of plain evaluation.
    have done : plain.isSettled := by
      cases plain with
      | aborted error => exact settled
      | _ => rfl
    cases outcome with
    | matched node stop =>
      obtain ⟨text, taken⟩ := takes node stop rfl
      have first := @report (some (node, stop)) misses inside sound (tried atom member) rfl
        (missed done)
      cases shown rfl done with
      | @matched _ tree _ _ =>
        exact first.trans (matched node tree stop (onward node stop (inside.after taken))
          reached finished settled)
    | failed =>
      have first := @report none misses inside sound (tried atom member) rfl (missed done)
      cases shown rfl done with
      | failed => exact first.trans (failed otherwise reached finished settled)
    | aborted error => exact absurd finished.symm (recorded_ne_aborted entry _)

/-- Note was taken of what the memo answers for, and of what a new entry answers for. -/
theorem noted_insert (steady : parser.grammar.Steady) (known : parser.Noted state)
    (inside : cursor.In parser.input) (tried : parser.grammar.Tries atom frame)
    (missed : parser.grammar.Misses frame atom cursor misses)
    (absorbs : ∀ miss ∈ misses, state.furthest.Absorbs miss) (entry : Option (Node × Cursor)) :
    parser.Noted { state with memo := state.memo.insert (atom, cursor.offset) entry } := by
  intro atom' cursor' entry' frame' misses' inside' found tried' missed'
  simp only [Std.HashMap.getElem?_insert] at found
  split at found
  · next same =>
    simp only [beq_iff_eq, Prod.mk.injEq] at same
    obtain ⟨rfl, offset⟩ := same
    obtain rfl := inside.eq_of_offset_eq inside' offset
    rcases steady _ _ _ tried tried' with rfl | ⟨_, silent⟩
    · rw [missed'.unique missed]
      exact absorbs
    · rw [missed'.eq_nil silent]
      exact fun miss member => by cases member
  · exact known inside' found tried' missed'

/-- What is put in the memo was taken note of. -/
theorem Reported.remember {answer : Answer}
    (reported : parser.Reported state answer.2 misses) (inside : cursor.In parser.input)
    (tried : parser.grammar.Tries atom frame)
    (missed : parser.grammar.Misses frame atom cursor misses) :
    parser.Reported state (Parser.remember atom cursor answer).2 misses := by
  have inserted : ∀ entry, parser.Reported state
      { answer.2 with memo := answer.2.memo.insert (atom, cursor.offset) entry } misses := by
    refine fun entry => ⟨reported.partly, fun steady noted => ?_⟩
    obtain ⟨known, furthest⟩ := reported.fully steady noted
    refine ⟨noted_insert steady known inside tried missed (fun miss member => ?_) entry, furthest⟩
    rw [furthest]
    exact absorbs_noteAll _ member
  obtain ⟨outcome, after⟩ := answer
  cases outcome with
  | matched node stop => exact inserted (some (node, stop))
  | failed => exact inserted none
  | aborted error => exact reported

/-- Every visit takes note of what plain evaluation misses. -/
theorem reports_visit (parser : Parser) (fuel : Nat) : parser.Reports (parser.visit fuel) := by
  induction fuel with
  | zero =>
    intro frame atom cursor state entry misses _ _ _ finished
    exact absurd finished.symm (recorded_ne_aborted entry _)
  | succ fuel ih =>
    intro frame index cursor state entry misses inside sound tried finished missed
    cases memo : state.memo[(index, cursor.offset)]? with
    | some known =>
      rw [visit_of_hit fuel frame memo]
      refine ⟨⟨[], nil_sublist _, rfl⟩, fun _ noted => ⟨noted, ?_⟩⟩
      exact (noteAll_of_absorbs (noted inside memo tried missed)).symm
    | none =>
      rw [visit_of_miss fuel frame memo, remember_fst] at finished
      rw [visit_of_miss fuel frame memo]
      refine Reported.remember ?_ inside tried missed
      cases found : parser.grammar.atoms[index]? with
      | none =>
        rw [attempt, found] at finished
        exact absurd finished.symm (recorded_ne_aborted entry _)
      | some atom =>
        rw [attempt_eq parser _ frame cursor _ found] at finished ⊢
        split
        · next refused =>
          rw [if_pos refused] at finished
          exact absurd finished.symm (recorded_ne_aborted entry _)
        · next entered =>
          rw [if_neg entered] at finished
          obtain ⟨less, depth, settled, rfl⟩ := missed
          cases less with
          | zero => cases settled
          | succ less =>
            rw [Plain.visit_succ_unlimited less depth frame cursor found] at settled ⊢
            have raised : parser.Sound (raise atom.levels (noted index cursor state)) :=
              sound.congr rfl (.refl _)
            have performed := reported_perform ih
              (fun part member => tried.part found member)
              (Script.alike_ofAtom parser.grammar cursor atom)
              (Script.all_ofAtom parser.grammar atom inside) raised finished settled
            exact performed.congr rfl rfl rfl rfl

end Parser

end Reflow
