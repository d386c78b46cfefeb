import DeadCode.Report.Json

/- Which texts are JSON documents, and a reader for them. The grammar is that of RFC 8259, with every
   blank, spelling and number it allows; the reader is a machine that takes one character at a time.
   Every text the grammar derives is read as the value it stands for, so a text has one value. -/
namespace DeadCode.Report

/-- What a document stands for. A number is the fraction it denotes, however it is spelled. -/
inductive Value where
  | null
  | bool (b : Bool)
  | number (q : Rat)
  | string (s : String)
  | array (items : List Value)
  | object (fields : List (String × Value))

namespace Value

section Characters

def isBlank (c : Char) : Bool := c = ' ' || c = '\t' || c = '\n' || c = '\r'

def isWord (c : Char) : Bool := c.isAlphanum || c = '+' || c = '-' || c = '.'

def isPlain (c : Char) : Bool := 32 ≤ c.toNat && c ≠ '"' && c ≠ '\\'

def short? : Char → Option Char
  | '"' => some '"'
  | '\\' => some '\\'
  | '/' => some '/'
  | 'b' => some '\x08'
  | 'f' => some '\x0c'
  | 'n' => some '\n'
  | 'r' => some '\r'
  | 't' => some '\t'
  | _ => none

def hexValue? (c : Char) : Option Nat :=
  if c.isDigit then some (c.toNat - '0'.toNat)
  else if 'a' ≤ c ∧ c ≤ 'f' then some (c.toNat - 'a'.toNat + 10)
  else if 'A' ≤ c ∧ c ≤ 'F' then some (c.toNat - 'A'.toNat + 10)
  else none

/-- The number that hexadecimal digits go on to after those already read. -/
def unit? : Nat → List Char → Option Nat
  | n, [] => some n
  | n, c :: rest => (hexValue? c).bind fun digit => unit? (16 * n + digit) rest

/-- The first and the second half of a character beyond the sixteen-bit ones. -/
def isHigh (n : Nat) : Bool := 0xD800 ≤ n && n < 0xDC00

def isLow (n : Nat) : Bool := 0xDC00 ≤ n && n < 0xE000

def joined (high low : Nat) : Char := Char.ofNat (0x10000 + 0x400 * (high - 0xD800) + (low - 0xDC00))

end Characters

section Words

def digits? (cs : List Char) : Option Nat :=
  if cs ≠ [] ∧ cs.all Char.isDigit then some (Nat.ofDigitChars 10 cs 0) else none

/-- A whole part of more than one digit does not start with zero. -/
def whole? : List Char → Option Nat
  | '0' :: _ :: _ => none
  | cs => digits? cs

def decimal? (cs : List Char) : Option Rat :=
  match cs.dropWhile (· ≠ '.') with
  | [] => do return ((← whole? cs) : Nat)
  | _ :: places => do
    let whole ← whole? (cs.takeWhile (· ≠ '.'))
    let part ← digits? places
    return (whole : Rat) + (part : Rat) / (10 : Rat) ^ places.length

def scale? : List Char → Option Rat
  | '-' :: cs => (digits? cs).map fun n => 1 / (10 : Rat) ^ n
  | '+' :: cs => (digits? cs).map fun n => (10 : Rat) ^ n
  | cs => (digits? cs).map fun n => (10 : Rat) ^ n

def magnitude? (cs : List Char) : Option Rat :=
  match cs.dropWhile fun c => c ≠ 'e' ∧ c ≠ 'E' with
  | [] => decimal? cs
  | _ :: exponent => do
    let q ← decimal? (cs.takeWhile fun c => c ≠ 'e' ∧ c ≠ 'E')
    let scale ← scale? exponent
    return q * scale

def number? : List Char → Option Rat
  | '-' :: cs => (magnitude? cs).map fun q => -q
  | cs => magnitude? cs

def word? (w : List Char) : Option Value :=
  if w = "null".toList then some .null
  else if w = "true".toList then some (.bool true)
  else if w = "false".toList then some (.bool false)
  else (number? w).map .number

end Words

section Grammar

inductive Spelled : List Char → List Char → Prop
  | nil : Spelled [] []
  | plain {c : Char} {s t : List Char} (itself : isPlain c = true) (rest : Spelled s t) :
      Spelled (c :: s) (c :: t)
  | short {c letter : Char} {s t : List Char} (stands : short? letter = some c)
      (rest : Spelled s t) : Spelled (c :: s) ('\\' :: letter :: t)
  | unit {n : Nat} {ds s t : List Char} (four : ds.length = 4) (value : unit? 0 ds = some n)
      (single : isHigh n = false ∧ isLow n = false) (rest : Spelled s t) :
      Spelled (Char.ofNat n :: s) ('\\' :: 'u' :: (ds ++ t))
  | pair {high low : Nat} {ds es s t : List Char} (four : ds.length = 4 ∧ es.length = 4)
      (first : unit? 0 ds = some high ∧ isHigh high = true)
      (second : unit? 0 es = some low ∧ isLow low = true) (rest : Spelled s t) :
      Spelled (joined high low :: s) ('\\' :: 'u' :: (ds ++ '\\' :: 'u' :: (es ++ t)))

inductive Part where
  | value (v : Value)
  | element (v : Value)
  | elements (vs : List Value)
  | member (f : String × Value)
  | members (fs : List (String × Value))

def Blanks (cs : List Char) : Prop := ∀ c ∈ cs, isBlank c = true

inductive Written : Part → List Char → Prop
  | word {v : Value} {w : List Char} (named : word? w = some v) : Written (.value v) w
  | string {s t : List Char} (spelled : Spelled s t) :
      Written (.value (.string (String.ofList s))) ('"' :: (t ++ ['"']))
  | emptyArray {b : List Char} (blanks : Blanks b) : Written (.value (.array [])) ('[' :: (b ++ [']']))
  | array {vs : List Value} {t : List Char} (inside : Written (.elements vs) t) :
      Written (.value (.array vs)) ('[' :: (t ++ [']']))
  | emptyObject {b : List Char} (blanks : Blanks b) :
      Written (.value (.object [])) ('\x7b' :: (b ++ ['\x7d']))
  | object {fs : List (String × Value)} {t : List Char} (inside : Written (.members fs) t) :
      Written (.value (.object fs)) ('\x7b' :: (t ++ ['\x7d']))
  | element {v : Value} {b t a : List Char} (before : Blanks b) (written : Written (.value v) t)
      (after : Blanks a) : Written (.element v) (b ++ (t ++ a))
  | lastElement {v : Value} {t : List Char} (written : Written (.element v) t) :
      Written (.elements [v]) t
  | elements {v : Value} {vs : List Value} {t u : List Char} (written : Written (.element v) t)
      (others : Written (.elements vs) u) : Written (.elements (v :: vs)) (t ++ ',' :: u)
  | member {v : Value} {b s k a t : List Char} (before : Blanks b) (key : Spelled s k)
      (after : Blanks a) (written : Written (.element v) t) :
      Written (.member (String.ofList s, v)) (b ++ '"' :: (k ++ '"' :: (a ++ ':' :: t)))
  | lastMember {f : String × Value} {t : List Char} (written : Written (.member f) t) :
      Written (.members [f]) t
  | members {f : String × Value} {fs : List (String × Value)} {t u : List Char}
      (written : Written (.member f) t) (others : Written (.members fs) u) :
      Written (.members (f :: fs)) (t ++ ',' :: u)

end Grammar

section Machine

inductive Token where
  | mark (c : Char)
  | word (w : List Char)
  | text (s : String)

inductive Frame where
  | items (before : List Value)
  | fields (before : List (String × Value)) (name : String)

/-- What has to follow. A value or a key is fresh right after the opening bracket, where the closing
    one may stand in its place. -/
inductive State where
  | value (fresh : Bool) (stack : List Frame)
  | key (fresh : Bool) (before : List (String × Value)) (stack : List Frame)
  | colon (before : List (String × Value)) (name : String) (stack : List Frame)
  | done (v : Value) (stack : List Frame)

def State.take : State → Token → Option State
  | .value _ stack, .word w => (word? w).map (.done · stack)
  | .value _ stack, .text s => some (.done (.string s) stack)
  | .value _ stack, .mark '[' => some (.value true (.items [] :: stack))
  | .value _ stack, .mark '\x7b' => some (.key true [] stack)
  | .value true (.items _ :: stack), .mark ']' => some (.done (.array []) stack)
  | .key true _ stack, .mark '\x7d' => some (.done (.object []) stack)
  | .key _ before stack, .text name => some (.colon before name stack)
  | .colon before name stack, .mark ':' => some (.value false (.fields before name :: stack))
  | .done v (.items before :: stack), .mark ',' =>
    some (.value false (.items (before ++ [v]) :: stack))
  | .done v (.items before :: stack), .mark ']' => some (.done (.array (before ++ [v])) stack)
  | .done v (.fields before name :: stack), .mark ',' =>
    some (.key false (before ++ [(name, v)]) stack)
  | .done v (.fields before name :: stack), .mark '\x7d' =>
    some (.done (.object (before ++ [(name, v)])) stack)
  | _, _ => none

/-- Where in a token the machine stands, with what it has read of it. In an escape of four digits
    that is the half already read of a character, the number so far and the digits still to come. -/
inductive Mode where
  | between
  | word (w : List Char)
  | text (s : List Char)
  | escape (s : List Char) (high : Option Nat)
  | digits (s : List Char) (high : Option Nat) (n left : Nat)
  | half (s : List Char) (high : Nat)

def start (state : State) (c : Char) : Option (Mode × State) :=
  if isBlank c then some (.between, state)
  else if c = '"' then some (.text [], state)
  else if isWord c then some (.word [c], state)
  else (state.take (.mark c)).map (Mode.between, ·)

def close (s : List Char) : Option Nat → Nat → Option Mode
  | none, n =>
    if isHigh n then some (.half s n) else if isLow n then none else some (.text (s ++ [Char.ofNat n]))
  | some high, n => if isLow n then some (.text (s ++ [joined high n])) else none

def step (state : State) : Mode → Char → Option (Mode × State)
  | .between, c => start state c
  | .word w, c =>
    if isWord c then some (.word (w ++ [c]), state)
    else (state.take (.word w)).bind (start · c)
  | .text s, c =>
    if c = '"' then (state.take (.text (String.ofList s))).map (Mode.between, ·)
    else if c = '\\' then some (.escape s none, state)
    else if isPlain c then some (.text (s ++ [c]), state)
    else none
  | .escape s high, c =>
    if c = 'u' then some (.digits s high 0 4, state)
    else if high.isSome then none
    else (short? c).map fun d => (.text (s ++ [d]), state)
  | .digits s high n left, c =>
    (hexValue? c).bind fun digit =>
      if left ≤ 1 then (close s high (16 * n + digit)).map (·, state)
      else some (.digits s high (16 * n + digit) (left - 1), state)
  | .half s high, c => if c = '\\' then some (.escape s (some high), state) else none

def finish : Mode → State → Option Value
  | .between, .done v [] => some v
  | .word w, .value _ [] => word? w
  | _, _ => none

def complete (mode : Mode) (state : State) : List Char → Option Value
  | [] => finish mode state
  | c :: rest => (step state mode c).bind fun next => complete next.1 next.2 rest

def read (text : String) : Option Value := complete .between (.value false []) text.toList

end Machine

section Words

variable {cs : List Char}

theorem isWord_of_isDigit {c : Char} (digit : c.isDigit = true) : isWord c = true := by
  simp [isWord, Char.isAlphanum, digit]

theorem isWord_of_digits? {n : Nat} (read : digits? cs = some n) : ∀ c ∈ cs, isWord c = true := by
  rw [digits?] at read
  split at read
  · next shape => exact fun c mem => isWord_of_isDigit (List.all_eq_true.mp shape.2 c mem)
  · cases read

theorem digits?_of_whole? {n : Nat} (read : whole? cs = some n) : digits? cs = some n := by
  rw [whole?.eq_def] at read
  split at read
  · cases read
  · exact read

theorem isWord_of_cut {p : Char → Bool} {c : Char} {rest : List Char}
    (cut : cs.dropWhile p = c :: rest) (mark : isWord c = true)
    (before : ∀ c ∈ cs.takeWhile p, isWord c = true) (after : ∀ c ∈ rest, isWord c = true) :
    ∀ c ∈ cs, isWord c = true := by
  intro d mem
  rw [← List.takeWhile_append_dropWhile (p := p) (l := cs), cut] at mem
  rcases List.mem_append.mp mem with left | right
  · exact before d left
  · rcases List.mem_cons.mp right with rfl | inside
    · exact mark
    · exact after d inside

theorem stopped_of_dropWhile {p : Char → Bool} {c : Char} {rest : List Char}
    (cut : cs.dropWhile p = c :: rest) : p c = false := by
  have := List.head?_dropWhile_not p cs
  rw [cut] at this
  simpa using this

theorem isWord_of_decimal? {q : Rat} (read : decimal? cs = some q) : ∀ c ∈ cs, isWord c = true := by
  rw [decimal?] at read
  split at read
  · obtain ⟨n, whole, -⟩ := Option.bind_eq_some_iff.mp read
    exact isWord_of_digits? (digits?_of_whole? whole)
  · next c places cut =>
    have point : c = '.' := by simpa using stopped_of_dropWhile cut
    simp only [Option.bind_eq_bind, Option.bind_eq_some_iff] at read
    obtain ⟨n, whole, m, part, -⟩ := read
    exact isWord_of_cut cut (by rw [point]; decide) (isWord_of_digits? (digits?_of_whole? whole))
      (isWord_of_digits? part)

theorem isWord_of_scale? {q : Rat} (read : scale? cs = some q) : ∀ c ∈ cs, isWord c = true := by
  rw [scale?.eq_def] at read
  split at read <;> obtain ⟨n, digits, -⟩ := Option.map_eq_some_iff.mp read
  · exact List.forall_mem_cons.mpr ⟨by decide, isWord_of_digits? digits⟩
  · exact List.forall_mem_cons.mpr ⟨by decide, isWord_of_digits? digits⟩
  · exact isWord_of_digits? digits

theorem isWord_of_magnitude? {q : Rat} (read : magnitude? cs = some q) :
    ∀ c ∈ cs, isWord c = true := by
  rw [magnitude?] at read
  split at read
  · exact isWord_of_decimal? read
  · next c exponent cut =>
    have letter : c = 'e' ∨ c = 'E' := by
      have stopped := stopped_of_dropWhile cut
      grind
    simp only [Option.bind_eq_bind, Option.bind_eq_some_iff] at read
    obtain ⟨q, decimal, scale, scaled, -⟩ := read
    exact isWord_of_cut cut (by rcases letter with rfl | rfl <;> decide) (isWord_of_decimal? decimal)
      (isWord_of_scale? scaled)

theorem isWord_of_number? {q : Rat} (read : number? cs = some q) : ∀ c ∈ cs, isWord c = true := by
  rw [number?.eq_def] at read
  split at read
  · obtain ⟨m, magnitude, -⟩ := Option.map_eq_some_iff.mp read
    exact List.forall_mem_cons.mpr ⟨by decide, isWord_of_magnitude? magnitude⟩
  · exact isWord_of_magnitude? read

theorem isWord_of_word? {v : Value} (read : word? cs = some v) : ∀ c ∈ cs, isWord c = true := by
  rw [word?] at read
  split at read
  · next named => rw [named]; exact List.all_eq_true.mp (by decide)
  · split at read
    · next named => rw [named]; exact List.all_eq_true.mp (by decide)
    · split at read
      · next named => rw [named]; exact List.all_eq_true.mp (by decide)
      · obtain ⟨q, number, -⟩ := Option.map_eq_some_iff.mp read
        exact isWord_of_number? number

theorem word?_nil : word? [] = none := by decide

end Words

section Reading

variable {state next : State} {rest : List Char} {stack : List Frame} {fresh : Bool}

def Stops (rest : List Char) : Prop := ∀ c, rest.head? = some c → isWord c = false

@[simp] theorem stops_nil : Stops [] := by simp [Stops]

@[simp] theorem stops_cons {c : Char} : Stops (c :: rest) ↔ isWord c = false := by simp [Stops]

theorem not_isWord_of_isBlank {c : Char} (blank : isBlank c = true) : isWord c = false := by
  simp only [isBlank, Bool.or_eq_true, decide_eq_true_eq] at blank
  rcases blank with ((rfl | rfl) | rfl) | rfl <;> decide

theorem Stops.blanks {b : List Char} (blanks : Blanks b) (stops : Stops rest) : Stops (b ++ rest) := by
  cases b with
  | nil => exact stops
  | cons c b => exact stops_cons.mpr (not_isWord_of_isBlank (blanks c (by simp)))

theorem complete_cons {mode : Mode} {c : Char} :
    complete mode state (c :: rest) =
      (step state mode c).bind fun next => complete next.1 next.2 rest := rfl

theorem complete_blanks {b : List Char} (blanks : Blanks b) :
    complete .between state (b ++ rest) = complete .between state rest := by
  induction b with
  | nil => rfl
  | cons c b ih =>
    have blank : isBlank c = true := blanks c (by simp)
    rw [List.cons_append, complete_cons, step, start, if_pos blank]
    exact ih fun c mem => blanks c (List.mem_cons_of_mem _ mem)

theorem complete_mark {c : Char} (mark : isBlank c = false ∧ c ≠ '"' ∧ isWord c = false)
    (taken : state.take (.mark c) = some next) :
    complete .between state (c :: rest) = complete .between next rest := by
  simp [complete_cons, step, start, mark, taken]

theorem complete_rest_of_word {v : Value} {w read : List Char} (letters : ∀ c ∈ w, isWord c = true)
    (named : word? (read ++ w) = some v) (stops : Stops rest) :
    complete (.word read) (.value fresh stack) (w ++ rest) =
      complete .between (.done v stack) rest := by
  induction w generalizing read with
  | nil =>
    rw [List.append_nil] at named
    cases rest with
    | nil => cases stack <;> simp [complete, finish, named]
    | cons c rest =>
      have taken : (State.value fresh stack).take (.word read) = some (.done v stack) := by
        simp [State.take, named]
      simp [complete_cons, step, stops_cons.mp stops, taken]
  | cons c w ih =>
    have letter : isWord c = true := letters c (by simp)
    rw [List.cons_append, complete_cons, step, if_pos letter]
    exact ih (fun c mem => letters c (List.mem_cons_of_mem _ mem)) (by simpa using named)

theorem complete_word {v : Value} {w : List Char} (named : word? w = some v) (stops : Stops rest) :
    complete .between (.value fresh stack) (w ++ rest) = complete .between (.done v stack) rest := by
  have letters := isWord_of_word? named
  cases w with
  | nil => simp [word?_nil] at named
  | cons c w =>
    have letter : isWord c = true := letters c (by simp)
    have opens : isBlank c = false ∧ c ≠ '"' := by
      refine ⟨Bool.eq_false_iff.mpr fun blank => ?_, ?_⟩
      · simp [not_isWord_of_isBlank blank] at letter
      · rintro rfl
        exact absurd letter (by decide)
    have first : step (.value fresh stack) .between c = some (.word [c], .value fresh stack) := by
      simp [step, start, opens, letter]
    rw [List.cons_append, complete_cons, first]
    exact complete_rest_of_word (fun c mem => letters c (List.mem_cons_of_mem _ mem)) named stops

theorem complete_digits {high : Option Nat} {n m left : Nat} {s ds : List Char} {mode : Mode}
    (length : ds.length = left) (some_left : 0 < left) (value : unit? n ds = some m)
    (closed : close s high m = some mode) :
    complete (.digits s high n left) state (ds ++ rest) = complete mode state rest := by
  induction ds generalizing n left with
  | nil => simp_all
  | cons c ds ih =>
    obtain ⟨digit, hex, value⟩ := Option.bind_eq_some_iff.mp value
    rw [List.cons_append, complete_cons, step, hex, Option.bind_some]
    cases ds with
    | nil =>
      cases value
      rw [if_pos (by simp at length; omega), closed]
      rfl
    | cons d ds =>
      rw [if_neg (by simp at length; omega)]
      exact ih (by simp at length ⊢; omega) (by simp at length; omega) value

theorem complete_spelled {s t read : List Char} (spelled : Spelled s t) :
    complete (.text read) state (t ++ rest) = complete (.text (read ++ s)) state rest := by
  induction spelled generalizing read with
  | nil => simp
  | @plain c s t itself _ ih =>
    have shown : c ≠ '"' ∧ c ≠ '\\' := by simp_all [isPlain]
    rw [List.cons_append, complete_cons, step, if_neg shown.1, if_neg shown.2, if_pos itself]
    simpa using @ih (read ++ [c])
  | @short c letter s t stands _ ih =>
    have other : letter ≠ 'u' := by rintro rfl; simp [short?] at stands
    simpa [complete_cons, step, other, stands] using @ih (read ++ [c])
  | @unit n ds s t four value single _ ih =>
    have closed : close read none n = some (.text (read ++ [Char.ofNat n])) := by simp [close, single]
    have digits : complete (.digits read none 0 4) state (ds ++ (t ++ rest)) =
        complete (.text (read ++ [Char.ofNat n])) state (t ++ rest) :=
      complete_digits four (by decide) value closed
    simpa [complete_cons, step, digits] using @ih (read ++ [Char.ofNat n])
  | @pair high low ds es s t four first second _ ih =>
    have half : close read none high = some (.half read high) := by simp [close, first.2]
    have whole : close read (some high) low = some (.text (read ++ [joined high low])) := by
      simp [close, second.2]
    have digits : complete (.digits read none 0 4) state (ds ++ '\\' :: 'u' :: (es ++ (t ++ rest))) =
        complete (.half read high) state ('\\' :: 'u' :: (es ++ (t ++ rest))) :=
      complete_digits four.1 (by decide) first.1 half
    have others : complete (.digits read (some high) 0 4) state (es ++ (t ++ rest)) =
        complete (.text (read ++ [joined high low])) state (t ++ rest) :=
      complete_digits four.2 (by decide) second.1 whole
    simpa [complete_cons, step, digits, others] using @ih (read ++ [joined high low])

theorem complete_quoted {s t : List Char} (spelled : Spelled s t)
    (taken : state.take (.text (String.ofList s)) = some next) :
    complete .between state ('"' :: (t ++ '"' :: rest)) = complete .between next rest := by
  have opened : step state .between '"' = some (.text [], state) := rfl
  rw [complete_cons, opened, Option.bind_some, complete_spelled spelled]
  simp [complete_cons, step, taken]

def Part.Read : Part → List Char → Prop
  | .value v, t => ∀ fresh stack rest, Stops rest →
    complete .between (.value fresh stack) (t ++ rest) = complete .between (.done v stack) rest
  | .element v, t => ∀ fresh stack rest, Stops rest →
    complete .between (.value fresh stack) (t ++ rest) = complete .between (.done v stack) rest
  | .elements vs, t => ∀ fresh before stack rest,
    complete .between (.value fresh (.items before :: stack)) (t ++ ']' :: rest) =
      complete .between (.done (.array (before ++ vs)) stack) rest
  | .member f, t => ∀ fresh before stack rest, Stops rest →
    complete .between (.key fresh before stack) (t ++ rest) =
      complete .between (.done f.2 (.fields before f.1 :: stack)) rest
  | .members fs, t => ∀ fresh before stack rest,
    complete .between (.key fresh before stack) (t ++ '\x7d' :: rest) =
      complete .between (.done (.object (before ++ fs)) stack) rest

theorem take_key {before : List (String × Value)} {name : String} :
    (State.key fresh before stack).take (.text name) = some (.colon before name stack) := by
  cases fresh <;> rfl

/-- Each rule of the grammar is what the machine does there. -/
theorem Written.read {part : Part} {t : List Char} (written : Written part t) : part.Read t := by
  induction written with
  | word named => exact fun fresh stack rest stops => complete_word named stops
  | string spelled =>
    intro fresh stack rest _
    simpa using complete_quoted spelled rfl
  | emptyArray blanks =>
    intro fresh stack rest _
    rw [List.cons_append, complete_mark (by decide) rfl, List.append_assoc, complete_blanks blanks]
    exact complete_mark (by decide) rfl
  | array _ ih =>
    intro fresh stack rest _
    rw [List.cons_append, complete_mark (by decide) rfl, List.append_assoc]
    exact ih true [] stack rest
  | emptyObject blanks =>
    intro fresh stack rest _
    rw [List.cons_append, complete_mark (by decide) rfl, List.append_assoc, complete_blanks blanks]
    exact complete_mark (by decide) rfl
  | object _ ih =>
    intro fresh stack rest _
    rw [List.cons_append, complete_mark (by decide) rfl, List.append_assoc]
    exact ih true [] stack rest
  | element before _ after ih =>
    intro fresh stack rest stops
    rw [List.append_assoc, complete_blanks before, List.append_assoc,
      ih fresh stack _ (stops.blanks after), complete_blanks after]
  | lastElement _ ih =>
    intro fresh before stack rest
    rw [ih fresh _ _ (stops_cons.mpr (by decide))]
    exact complete_mark (by decide) rfl
  | @elements v vs t u _ _ ih others =>
    intro fresh before stack rest
    rw [List.append_assoc, List.cons_append, ih fresh _ _ (stops_cons.mpr (by decide)),
      complete_mark (by decide) rfl, others false (before ++ [v]) stack rest]
    simp
  | member before key after _ ih =>
    intro fresh fields stack rest stops
    rw [List.append_assoc, complete_blanks before, List.cons_append, List.append_assoc,
      List.cons_append, complete_quoted key take_key, List.append_assoc, complete_blanks after,
      List.cons_append, complete_mark (by decide) rfl]
    exact ih false _ rest stops
  | lastMember _ ih =>
    intro fresh before stack rest
    rw [ih fresh before stack _ (stops_cons.mpr (by decide))]
    exact complete_mark (by decide) rfl
  | @members f fs t u _ _ ih others =>
    intro fresh before stack rest
    rw [List.append_assoc, List.cons_append, ih fresh before stack _ (stops_cons.mpr (by decide)),
      complete_mark (by decide) rfl, others false (before ++ [f]) stack rest]
    simp

theorem read_of_written {v : Value} {text : String} (written : Written (.element v) text.toList) :
    Value.read text = some v := by
  have whole := written.read false [] [] stops_nil
  rw [List.append_nil] at whole
  rw [Value.read, whole]
  rfl

-- Blanks, a name and a character in two halves.
example : Value.read "[ true , \"\\ud83d\\ude00\\/\" ]\n" =
    some (.array [.bool true, .string "😀/"]) := by rfl

example : number? "-2.5e1".toList = some (-25) ∧ number? "1e-1".toList = some (1 / 10) := by
  decide +kernel

example : Value.read "[1,]" = none ∧ Value.read "01" = none ∧ Value.read "\"\n\"" = none := by decide

end Reading

end Value
end DeadCode.Report
