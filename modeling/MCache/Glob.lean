import MCache.Utf8

/-!
# Matching a name against a shell pattern

The matcher of `path/filepath` on Unix: `*` and `?` do not match the separator,
`[...]` is a class of code points, a backslash takes the next byte literally.
The outer `none` of a result is a malformed pattern.

A pattern without special bytes matches itself.
-/

namespace MCache.Glob

variable {pattern : List UInt8}

def separator : UInt8 := 47
def star : UInt8 := 42
def question : UInt8 := 63
def openBracket : UInt8 := 91
def closeBracket : UInt8 := 93
def backslash : UInt8 := 92
def dash : UInt8 := 45
def caret : UInt8 := 94

def skipStars : List UInt8 → Bool × List UInt8
  | [] => (false, [])
  | b :: pattern =>
    if b = star then (true, (skipStars pattern).2) else (false, b :: pattern)

def splitChunk : Bool → List UInt8 → List UInt8 × List UInt8
  | _, [] => ([], [])
  | inrange, b :: pattern =>
    if b = star ∧ inrange = false then ([], b :: pattern)
    else if b = backslash then
      match pattern with
      | [] => ([b], [])
      | next :: pattern =>
        let rest := splitChunk inrange pattern
        (b :: next :: rest.1, rest.2)
    else
      let rest := splitChunk (if b = openBracket then true
          else if b = closeBracket then false
          else inrange) pattern
      (b :: rest.1, rest.2)

def scanChunk (pattern : List UInt8) : Bool × List UInt8 × List UInt8 :=
  let start := skipStars pattern
  (start.1, splitChunk false start.2)

def getEsc (chunk : List UInt8) : Option (ℕ × List UInt8) :=
  if chunk.head? = none ∨ chunk.head? = some dash ∨ chunk.head? = some closeBracket then none
  else
    let chunk := if chunk.head? = some backslash then chunk.tail else chunk
    let rune := Utf8.decodeRune chunk
    if chunk = [] ∨ rune = (Utf8.runeError, 1) then none
    else
      let rest := chunk.drop rune.2
      if rest = [] then none else some (rune.1, rest)

def matchClass (rune : ℕ) : ℕ → Bool → Bool → List UInt8 → Option (Bool × List UInt8)
  | 0, _, _, _ => none
  | fuel + 1, nonempty, found, chunk =>
    if chunk.head? = some closeBracket ∧ nonempty = true then
      some (found, chunk.tail)
    else
      (getEsc chunk).bind fun low =>
        (if low.2.head? = some dash then getEsc low.2.tail else some low).bind fun high =>
            matchClass rune fuel true (found || decide (low.1 ≤ rune ∧ rune ≤ high.1)) high.2

def matchChunk : ℕ → Bool → List UInt8 → List UInt8 → Option (Option (List UInt8))
  | _, failed, [], name => some (if failed then none else some name)
  | 0, _, _ :: _, _ => none
  | fuel + 1, failed, b :: chunk, name =>
    let failed := failed || name.isEmpty
    let literal := fun (b : UInt8) (chunk : List UInt8) =>
      matchChunk fuel (failed || decide (name.head? ≠ some b)) chunk
        (if failed then name else name.tail)
    let rune := Utf8.decodeRune name
    let passed := if failed then name else name.drop rune.2
    if b = openBracket then
      let negated := decide (chunk.head? = some caret)
      let chunk := if negated then chunk.tail else chunk
      (matchClass rune.1 (chunk.length + 1) false false chunk).bind fun result =>
          matchChunk fuel (failed || result.1 == negated) result.2 passed
    else if b = question then
      matchChunk fuel (failed || decide (name.head? = some separator)) chunk passed
    else if b = backslash then
      match chunk with
      | [] => none
      | b :: chunk => literal b chunk
    else literal b chunk

def matchAfterStar (chunk : List UInt8) (last : Bool) : List UInt8 → Option (Option (List UInt8))
  | [] => some none
  | b :: name =>
    if b = separator then some none
    else
      (matchChunk chunk.length false chunk name).bind fun result =>
        match result with
        | none => matchAfterStar chunk last name
        | some rest =>
          if last && !rest.isEmpty then matchAfterStar chunk last name
          else some (some rest)

def matchFrom : ℕ → List UInt8 → List UInt8 → Option Bool
  | _, [], name => some name.isEmpty
  | 0, _ :: _, _ => none
  | fuel + 1, b :: pattern, name =>
    let (starred, chunk, rest) := scanChunk (b :: pattern)
    if starred && chunk.isEmpty then
      some (decide (separator ∉ name))
    else
      (matchChunk chunk.length false chunk name).bind fun result =>
        match result with
        | some left =>
          if left.isEmpty || !rest.isEmpty then matchFrom fuel rest left
          else if starred then
            (matchAfterStar chunk rest.isEmpty name).bind fun later =>
              match later with
              | some left => matchFrom fuel rest left
              | none => some false
          else some false
        | none =>
          if starred then
            (matchAfterStar chunk rest.isEmpty name).bind fun later =>
              match later with
              | some left => matchFrom fuel rest left
              | none => some false
          else some false

def pathMatch (pattern name : List UInt8) : Bool :=
  (matchFrom pattern.length pattern name).getD false

def Plain (pattern : List UInt8) : Prop :=
  ∀ b ∈ pattern, b ≠ star ∧ b ≠ question ∧ b ≠ openBracket ∧ b ≠ backslash

instance (pattern : List UInt8) : Decidable (Plain pattern) :=
  inferInstanceAs (Decidable (∀ b ∈ pattern, _))

theorem Plain.tail {b : UInt8} (hplain : Plain (b :: pattern)) : Plain pattern :=
  fun c hc => hplain c (List.mem_cons_of_mem b hc)

theorem Plain.splitChunk (hplain : Plain pattern) : splitChunk false pattern = (pattern, []) := by
  induction pattern with
  | nil => rfl
  | cons b pattern ih =>
    rcases hplain b List.mem_cons_self with ⟨hstar, -, hopen, hback⟩
    cases pattern <;>
      simp [Glob.splitChunk, hstar, hopen, hback, ih hplain.tail]

theorem Plain.scanChunk (hplain : Plain pattern) : scanChunk pattern = (false, pattern, []) := by
  have hstars : skipStars pattern = (false, pattern) := by
    cases pattern with
    | nil => rfl
    | cons b pattern => rw [skipStars, if_neg (hplain b List.mem_cons_self).1]
  rw [Glob.scanChunk, hstars, hplain.splitChunk]

theorem Plain.matchChunk {chunk : List UInt8} (hplain : Plain chunk) (rest : List UInt8) :
    matchChunk chunk.length false chunk (chunk ++ rest) = some (some rest) := by
  induction chunk with
  | nil => rfl
  | cons b chunk ih =>
    rcases hplain b List.mem_cons_self with ⟨-, hquestion, hopen, hback⟩
    simp [Glob.matchChunk, hquestion, hopen, hback, ih hplain.tail]

theorem Plain.pathMatch_self (hplain : Plain pattern) : pathMatch pattern pattern = true := by
  cases pattern with
  | nil => rfl
  | cons b pattern =>
    have hchunk := hplain.matchChunk []
    rw [List.append_nil, List.length_cons] at hchunk
    rw [pathMatch, List.length_cons, matchFrom, hplain.scanChunk]
    simp [hchunk, matchFrom]

end MCache.Glob
