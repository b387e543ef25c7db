import Reflow.Text.Width.Wide
import Reflow.Text.Width.Joining

/-!
# Sequences drawn as one

A text is measured from its end, since what a character adds depends on what stands to its right: an
emoji selector widens the character before it, a joined emoji hides the one before it, an alef melts
into the lam before it. `Follow` is all that has to be known about the right side, and `Follow.step`
gives the columns that one more character adds on the left.
-/

namespace Reflow.Text

/-- Columns of a character that is no control code. -/
def plainWidth (c : Char) : Nat :=
  if c.toNat ≤ 0xa0 then 1
  else if c.toNat == 0x17d8 then 3
  else if zeroWidthRanges.contains c then 0
  else if isWide c then 2
  else 1

/-- Letters that are drawn as one with a letter before them, and what such a ligature has when one
letter of it is still missing. -/
inductive Ligature where
  | hebrewLamed
  | bugineseYa
  | bugineseVowel
  | tifinagh
  | tifinaghJoiner
  | lisuTone
  | oldTurkicI
  | khmerLetter
  deriving DecidableEq, Repr

/-- What a character is to its left neighbour. -/
inductive Neighbour where
  | plain
  | lineFeed
  | emoji
  | skinTone
  /-- An emoji behind a joiner. -/
  | joinedEmoji
  /-- The keycap mark in front of a joined emoji. -/
  | joinedKeycap
  | regionalIndicator
  /-- At least two regional indicators. -/
  | regionalIndicators
  /-- One regional indicator in front of a joined emoji. -/
  | joinedIndicator
  /-- At least two regional indicators in front of a joined emoji, an even number or not. -/
  | joinedIndicators (even : Bool)
  /-- The end of a tag sequence in front of a joined emoji, with some letters of it. -/
  | tagLetters (count : Nat)
  /-- The same with some digits in front. -/
  | tagDigits (count : Nat)
  | kiratRaiE
  | kiratRaiAi
  | alef
  /-- A letter of a ligature; the flag says that a joiner stands before it. -/
  | ligature (kind : Ligature) (joined : Bool)
  deriving DecidableEq, Repr

/-- What stands to the right of a character, as far as it bears on the character's width. -/
structure Follow where
  neighbour : Neighbour := .plain
  /-- A selector in between asks for the shape of an emoji. -/
  emojiSelector : Bool := false
  /-- A selector in between asks for the shape of a text character. -/
  textSelector : Bool := false
  deriving DecidableEq, Repr

/-- Whether selectors may stand in front without breaking what was begun. -/
def Neighbour.isLigature : Neighbour → Bool
  | alef | ligature _ _ => true
  | _ => false

/-- Whether the neighbour is part of a joined emoji that a selector may precede. -/
def Neighbour.isJoined : Neighbour → Bool
  | joinedEmoji | joinedKeycap => true
  | _ => false

/-- What an emoji selector makes of the right side. -/
def Follow.selectEmoji (follow : Follow) : Follow :=
  if follow.neighbour.isLigature then { follow with emojiSelector := true }
  else if follow.neighbour.isJoined then ⟨follow.neighbour, true, false⟩
  else ⟨.plain, true, false⟩

/-- What a text selector makes of the right side. -/
def Follow.selectText (follow : Follow) : Follow :=
  if follow.neighbour.isLigature then { follow with textSelector := true }
  else ⟨.plain, false, true⟩

/-- The right side without an emoji selector that had no effect. -/
def Follow.dropEmoji (follow : Follow) : Follow :=
  if !follow.emojiSelector then follow
  else if follow.neighbour.isLigature then { follow with emojiSelector := false }
  else {}

/-- What a character by itself is to its left neighbour. -/
def Neighbour.ofChar (c : Char) : Neighbour :=
  let n := c.toNat
  if isRegionalIndicator c then .regionalIndicator
  else if isSkinTone c then .skinTone
  else if emojiRanges.contains c then .emoji
  else if alefRanges.contains c then .alef
  else if n == 0x05dc then .ligature .hebrewLamed false
  else if n == 0x1a10 then .ligature .bugineseYa false
  else if isTifinagh c then .ligature .tifinagh false
  else if n == 0xa4fc || n == 0xa4fd then .ligature .lisuTone false
  else if n == 0x10c03 then .ligature .oldTurkicI false
  else if khmerSubscriptRanges.contains c then .ligature .khmerLetter false
  else if n == 0x16d67 then .kiratRaiE
  else if n == 0x16d68 then .kiratRaiAi
  else .plain

def isTagLetter (c : Char) : Bool := 0xe0061 ≤ c.toNat && c.toNat ≤ 0xe007a

def isTagDigit (c : Char) : Bool := 0xe0030 ≤ c.toNat && c.toNat ≤ 0xe0039

/-- The black flag, which opens a tag sequence. -/
def blackFlag : Nat := 0x1f3f4

def joiner : Nat := 0x200d

/-- The columns that the letters of a ligature add before what they have of it. -/
def Ligature.sequence? (kind : Ligature) (joined : Bool) (c : Char) : Option (Int × Neighbour) :=
  let n := c.toNat
  if n == joiner then some (0, .ligature kind true)
  else if ligatureMarkRanges.contains c then some (0, .ligature kind joined)
  else
    match kind, joined with
    | .hebrewLamed, true => if n == 0x05d0 then some (0, .plain) else none
    | .bugineseYa, true => if n == 0x1a17 then some (0, .ligature .bugineseVowel true) else none
    | .bugineseVowel, _ => if n == 0x1a15 then some (0, .plain) else none
    | .tifinagh, _ =>
      if n == 0x2d7f then some (1, .ligature .tifinaghJoiner true)
      else if joined && isTifinagh c then some (0, .plain)
      else none
    | .tifinaghJoiner, _ => if isTifinagh c then some (-1, .plain) else none
    | .lisuTone, _ => if 0xa4f8 ≤ n && n ≤ 0xa4fb then some (0, .plain) else none
    | .oldTurkicI, true => if n == 0x10c32 then some (0, .plain) else none
    | .khmerLetter, _ => if n == 0x17d2 then some (-1, .plain) else none
    | _, _ => none

/-- The columns that a character adds in front of a joined emoji that it is part of. -/
def joinedSequence? (c : Char) : Option (Int × Neighbour) :=
  let n := c.toNat
  if n == 0x20e3 then some (0, .joinedKeycap)
  else if isRegionalIndicator c then some (1, .joinedIndicator)
  else if isSkinTone c then some (0, .skinTone)
  else if n == 0xe007f then some (0, .tagLetters 0)
  else if emojiRanges.contains c then some (0, .emoji)
  else none

/-- The columns that a character adds before a neighbour with which it forms a sequence, and what
the two are to their left neighbour. -/
def Neighbour.sequence? (neighbour : Neighbour) (c : Char) : Option (Int × Neighbour) :=
  let n := c.toNat
  match neighbour with
  | .plain | .lineFeed | .joinedKeycap => none
  | .emoji => if n == joiner then some (0, .joinedEmoji) else none
  | .skinTone =>
    if n == joiner then some (0, .joinedEmoji)
    else if skinToneBaseRanges.contains c then some (0, .emoji)
    else none
  | .joinedEmoji => joinedSequence? c
  | .regionalIndicator => if isRegionalIndicator c then some (1, .regionalIndicators) else none
  | .regionalIndicators =>
    if isRegionalIndicator c then some (1, .regionalIndicators)
    else if n == joiner then some (0, .joinedEmoji)
    else none
  | .joinedIndicator => if isRegionalIndicator c then some (-1, .joinedIndicators true) else none
  | .joinedIndicators even =>
    if isRegionalIndicator c then some (if even then 3 else -1, .joinedIndicators !even)
    else if n == joiner then some (0, .joinedEmoji)
    else none
  | .tagLetters count =>
    if isTagLetter c && count < 6 then some (0, .tagLetters (count + 1))
    else if isTagDigit c && count < 5 then some (0, .tagDigits 1)
    else if n == blackFlag && 3 ≤ count then some (0, .emoji)
    else none
  | .tagDigits count =>
    if isTagDigit c && count < 3 then some (0, .tagDigits (count + 1))
    else if n == blackFlag && count == 3 then some (0, .emoji)
    else none
  | .kiratRaiE =>
    if n == 0x16d63 || n == 0x16d69 then some (0, .plain)
    else if n == 0x16d67 then some (0, .kiratRaiAi)
    else if n == 0x16d68 then some (1, .kiratRaiE)
    else none
  | .kiratRaiAi => if n == 0x16d63 then some (0, .plain) else none
  | .alef =>
    if lamRanges.contains c then some (0, .plain)
    else if isJoiningMark c then some (0, .alef)
    else none
  | .ligature kind joined => kind.sequence? joined c

/-- The columns that a character adds to a right side without selectors. -/
def Neighbour.step (neighbour : Neighbour) (c : Char) : Int × Neighbour :=
  match neighbour.sequence? c with
  | some answer => answer
  | none => (plainWidth c, .ofChar c)

/-- The columns that a character adds to a right side, and what the two are to their left
neighbour. -/
def Follow.step (c : Char) (follow : Follow) : Int × Follow :=
  if follow.emojiSelector && emojiSelectableRanges.contains c then
    (if follow.neighbour.isJoined then 0 else 2, ⟨.emoji, false, false⟩)
  else
    let follow := follow.dropEmoji
    if c.toNat ≤ 0xa0 then
      if c = '\n' then (1, ⟨.lineFeed, false, false⟩)
      else if c = '\r' && follow.neighbour = .lineFeed then (0, {})
      else (1, {})
    else if c.toNat == 0xfe0f then (0, follow.selectEmoji)
    else if c.toNat == 0xfe0e then (0, follow.selectText)
    else if follow.textSelector && isTextSelectable c then (1, {})
    else
      let (columns, neighbour) := follow.neighbour.step c
      (columns, ⟨neighbour, false, false⟩)

end Reflow.Text
