import Offside.Text.Quoted

/-!
UTF-8 files as text. A malformed sequence is reported with the bytes it spans; on reading, every
style of line break becomes a single line feed. A text with surrogates cannot be written; the first
of them are reported.
-/

namespace Offside.Text

inductive Utf8Defect where
  | startByte
  | continuationByte
  | endOfData
  deriving DecidableEq, Repr

structure Utf8Error where
  defect : Utf8Defect
  start : Nat
  stop : Nat
  byte : Nat
  deriving DecidableEq, Repr

def Utf8Defect.text : Utf8Defect → String
  | .startByte => "invalid start byte"
  | .continuationByte => "invalid continuation byte"
  | .endOfData => "unexpected end of data"

def Utf8Error.message (e : Utf8Error) : String :=
  let place :=
    if e.stop = e.start + 1 then
      "byte 0x" ++ String.ofList (hexDigits 2 e.byte) ++ " in position " ++ toString e.start
    else "bytes in position " ++ toString e.start ++ "-" ++ toString (e.stop - 1)
  "'utf-8' codec can't decode " ++ place ++ ": " ++ e.defect.text

def isContinuation (b : Nat) : Bool := 0x80 ≤ b && b < 0xC0

/-- Whether `b` may follow the leading byte `lead`: no overlong forms, surrogates or code points
above the last one. -/
def mayFollow (lead b : Nat) : Bool :=
  isContinuation b &&
    (if lead = 0xE0 then 0xA0 ≤ b else if lead = 0xED then b < 0xA0
     else if lead = 0xF0 then 0x90 ≤ b else if lead = 0xF4 then b < 0x90 else true)

/-- Number of bytes in the sequence that `lead` opens, if it opens one. -/
def sequenceLength? (lead : Nat) : Option Nat :=
  if lead < 0x80 then some 1
  else if lead < 0xC2 then none
  else if lead < 0xE0 then some 2
  else if lead < 0xF0 then some 3
  else if lead < 0xF5 then some 4
  else none

/-- The first defect of the sequence opened by `lead` and continued by `rest`, of which `width`
bytes are due: the number of bytes before it and its nature. -/
def sequenceDefect (lead width : Nat) (rest : List Nat) : Option (Nat × Utf8Defect) :=
  let tail := rest.take (width - 1)
  let good := match tail with
    | [] => 0
    | b :: more => if mayFollow lead b then 1 + (more.takeWhile isContinuation).length else 0
  if good = width - 1 then none
  else if good = tail.length then some (good + 1, .endOfData)
  else some (good + 1, .continuationByte)

/-- The first malformed sequence; `skip` counts the bytes left of the sequence being passed. -/
def firstDefect (position skip : Nat) : List Nat → Option Utf8Error
  | [] => none
  | b :: rest =>
    match skip with
    | k + 1 => firstDefect (position + 1) k rest
    | 0 =>
      match sequenceLength? b with
      | none => some ⟨.startByte, position, position + 1, b⟩
      | some width =>
        match sequenceDefect b width rest with
        | some (length, defect) => some ⟨defect, position, position + length, b⟩
        | none => firstDefect (position + 1) (width - 1) rest

def decodeUtf8 (bytes : ByteArray) : Except Utf8Error String :=
  match String.fromUTF8? bytes with
  | some s => .ok s
  | none =>
    match firstDefect 0 0 (bytes.toList.map UInt8.toNat) with
    | some e => .error e
    | none => .ok ""

/-- Surrogates that follow one another in a text: the first one's code point, and their places. -/
structure SurrogateError where
  first : Nat
  start : Nat
  stop : Nat
  deriving DecidableEq, Repr

def SurrogateError.message (e : SurrogateError) : String :=
  let place :=
    if e.stop = e.start + 1 then
      "character '\\u" ++ String.ofList (hexDigits 4 e.first) ++ "' in position " ++ toString e.start
    else "characters in position " ++ toString e.start ++ "-" ++ toString (e.stop - 1)
  "'utf-8' codec can't encode " ++ place ++ ": surrogates not allowed"

/-- The surrogates wherever they stand. -/
def SurrogateError.bare (e : SurrogateError) : SurrogateError :=
  { e with start := 0, stop := e.stop - e.start }

/-- The first surrogates of a text that begins at `position`. -/
def firstSurrogates (position : Nat) : List Char → Option SurrogateError
  | [] => none
  | c :: rest =>
    if isSurrogate c then
      some ⟨codePoint c, position, position + 1 + (rest.takeWhile isSurrogate).length⟩
    else firstSurrogates (position + 1) rest

def encodeUtf8 (s : String) : Except SurrogateError ByteArray :=
  match firstSurrogates 0 s.toList with
  | some e => .error e
  | none => .ok s.toUTF8

/-- A text that a file can hold. -/
def IsEncodable (s : String) : Prop := ∀ c ∈ s.toList, isSurrogate c = false

instance (s : String) : Decidable (IsEncodable s) :=
  decidable_of_iff (s.toList.all fun c => !isSurrogate c) (by simp [IsEncodable])

theorem isEncodable_append {s t : String} : IsEncodable (s ++ t) ↔ IsEncodable s ∧ IsEncodable t := by
  simp [IsEncodable, or_imp, forall_and]

theorem firstSurrogates_eq_none {position : Nat} {cs : List Char} :
    firstSurrogates position cs = none ↔ ∀ c ∈ cs, isSurrogate c = false := by
  induction cs generalizing position with
  | nil => simp [firstSurrogates]
  | cons c cs ih =>
    unfold firstSurrogates
    by_cases h : isSurrogate c = true
    · simp [h]
    · simp [h, ih]

theorem encodeUtf8_ok {s : String} (h : IsEncodable s) : encodeUtf8 s = .ok s.toUTF8 := by
  unfold encodeUtf8
  rw [firstSurrogates_eq_none.mpr h]

theorem bytes_of_encodeUtf8 {s : String} {bytes : ByteArray} (h : encodeUtf8 s = .ok bytes) :
    bytes = s.toUTF8 := by
  unfold encodeUtf8 at h
  split at h
  · cases h
  · cases h
    rfl

theorem encodeUtf8_error {s : String} (h : ¬ IsEncodable s) : ∃ e, encodeUtf8 s = .error e := by
  unfold encodeUtf8
  cases hs : firstSurrogates 0 s.toList with
  | none => exact absurd (firstSurrogates_eq_none.mp hs) h
  | some e => exact ⟨e, rfl⟩

/-- Two texts have the same surrogates first, or none. -/
def SameSurrogates (s t : String) : Prop :=
  (firstSurrogates 0 s.toList).map (·.bare) = (firstSurrogates 0 t.toList).map (·.bare)

theorem SameSurrogates.refl (s : String) : SameSurrogates s s := rfl

theorem firstSurrogates_bare (m n : Nat) (cs : List Char) :
    (firstSurrogates m cs).map (·.bare) = (firstSurrogates n cs).map (·.bare) := by
  induction cs generalizing m n with
  | nil => rfl
  | cons c cs ih =>
    unfold firstSurrogates
    by_cases h : isSurrogate c = true
    · simp [h, SurrogateError.bare]
      omega
    · simp only [h, Bool.false_eq_true, if_false]
      exact ih _ _

theorem firstSurrogates_append {n : Nat} {cs : List Char} (h : ∀ c ∈ cs, isSurrogate c = false)
    (more : List Char) : firstSurrogates n (cs ++ more) = firstSurrogates (n + cs.length) more := by
  induction cs generalizing n with
  | nil => rfl
  | cons c cs ih =>
    obtain ⟨hc, hcs⟩ := List.forall_mem_cons.mp h
    rw [List.cons_append, firstSurrogates, hc, if_neg Bool.false_ne_true, ih hcs, List.length_cons,
      Nat.add_right_comm, Nat.add_assoc]

/-- What comes before a text without surrogates in it only moves those of the text. -/
theorem sameSurrogates_append {s t : String} (hs : IsEncodable s) (ht : IsEncodable t) (u : String) :
    SameSurrogates (s ++ u) (t ++ u) := by
  unfold SameSurrogates
  rw [String.toList_append, String.toList_append, firstSurrogates_append hs,
    firstSurrogates_append ht]
  exact firstSurrogates_bare _ _ _

theorem SameSurrogates.encodeUtf8 {s t : String} (h : SameSurrogates s t) :
    (∃ bytes bytes', Text.encodeUtf8 s = .ok bytes ∧ Text.encodeUtf8 t = .ok bytes') ∨
      ∃ e e', Text.encodeUtf8 s = .error e ∧ Text.encodeUtf8 t = .error e' ∧ e'.bare = e.bare := by
  unfold SameSurrogates at h
  unfold Text.encodeUtf8
  cases hs : firstSurrogates 0 s.toList with
  | none =>
    rw [hs] at h
    cases ht : firstSurrogates 0 t.toList with
    | none => exact .inl ⟨_, _, rfl, rfl⟩
    | some e' =>
      rw [ht] at h
      cases h
  | some e =>
    rw [hs] at h
    cases ht : firstSurrogates 0 t.toList with
    | none =>
      rw [ht] at h
      cases h
    | some e' =>
      rw [ht] at h
      exact .inr ⟨e, e', rfl, rfl, (Option.some.inj h).symm⟩

/-- Line feeds in place of carriage returns, with or without a line feed after them. -/
def plainLines : List Char → List Char
  | [] => []
  | '\r' :: '\n' :: rest => '\n' :: plainLines rest
  | c :: rest => (if c = '\r' then '\n' else c) :: plainLines rest

def readText (bytes : ByteArray) : Except Utf8Error String :=
  (decodeUtf8 bytes).map fun s => String.ofList (plainLines s.toList)

end Offside.Text
