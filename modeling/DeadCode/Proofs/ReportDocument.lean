import DeadCode.Proofs.JsonReading
import DeadCode.Report.Document

/- The report for programs loses nothing. What is written down is a JSON document for any strings and
   counts, so every reader of such documents sees the same value in it; and looked up by their names,
   the fields of that value are the fields of the result. -/
namespace DeadCode.Report

namespace Json
open Value

section Scalars

theorem unit?_hexDigit :
    ∀ n < 32, unit? 0 ['0', '0', hexDigit (n / 16), hexDigit (n % 16)] = some n := by
  decide

theorem spelled_escapeChar {c : Char} {s t : List Char} (rest : Spelled s t) :
    Spelled (c :: s) (escapeChar c ++ t) := by
  rw [escapeChar]
  -- Seven characters have a letter of their own.
  iterate 7
    split
    · next named => subst named; exact .short rfl rest
  split
  · next control =>
    have single : isHigh c.toNat = false ∧ isLow c.toNat = false := by
      simp only [isHigh, isLow, Bool.and_eq_false_iff, decide_eq_false_iff_not]
      omega
    have spelled := Spelled.unit rfl (unit?_hexDigit c.toNat control) single rest
    rwa [Char.ofNat_toNat] at spelled
  · have itself : isPlain c = true := by simp_all [isPlain]
    exact .plain itself rest

theorem spelled_escaped (s : List Char) : Spelled s (s.flatMap escapeChar) := by
  induction s with
  | nil => exact .nil
  | cons c s ih => exact spelled_escapeChar ih

theorem head?_toDigits {n : Nat} (positive : 0 < n) : (Nat.toDigits 10 n).head? ≠ some '0' := by
  induction n using Nat.strongRecOn with
  | ind n ih =>
    by_cases small : n < 10
    · rw [Nat.toDigits_of_lt_base small]
      simp only [List.head?_cons, ne_eq, Option.some.injEq, Nat.digitChar_eq_zero]
      omega
    · have shorter := ih (n / 10) (by omega) (by omega)
      rw [Nat.toDigits_eq_if (by decide), if_neg small]
      have nonempty : Nat.toDigits 10 (n / 10) ≠ [] := Nat.toDigits_ne_nil
      obtain ⟨c, rest, written⟩ := List.exists_cons_of_ne_nil nonempty
      rw [written] at shorter ⊢
      exact shorter

theorem isDigit_toDigits (n : Nat) : ∀ c ∈ Nat.toDigits 10 n, c.isDigit = true :=
  fun _ mem => Nat.isDigit_of_mem_toDigits (by decide) (by decide) mem

theorem whole?_toDigits (n : Nat) : whole? (Nat.toDigits 10 n) = some n := by
  rw [whole?.eq_def]
  split
  · next c rest written =>
    have large : ¬n < 10 := fun small => by simp [Nat.toDigits_of_lt_base small] at written
    exact absurd (by rw [written]; rfl) (head?_toDigits (n := n) (by omega))
  · rw [digits?, if_pos ⟨Nat.toDigits_ne_nil, List.all_eq_true.mpr (isDigit_toDigits n)⟩,
      Nat.ofDigitChars_ten_toDigits]

theorem dropWhile_toDigits (n : Nat) {p : Char → Bool} (digits : ∀ c, c.isDigit = true → p c = true) :
    (Nat.toDigits 10 n).dropWhile p = [] := by
  have dropped : (Nat.toDigits 10 n ++ []).dropWhile p = [] :=
    List.dropWhile_append_of_pos fun c mem => digits c (isDigit_toDigits n c mem)
  rwa [List.append_nil] at dropped

theorem isNoPoint_of_isDigit {c : Char} (digit : c.isDigit = true) : decide (c ≠ '.') = true := by
  refine decide_eq_true ?_
  rintro rfl
  exact absurd digit (by decide)

theorem decimal?_toDigits (n : Nat) : decimal? (Nat.toDigits 10 n) = some (n : Rat) := by
  have noPoint := dropWhile_toDigits n fun _ => isNoPoint_of_isDigit
  rw [decimal?, noPoint, whole?_toDigits]
  rfl

theorem magnitude?_toDigits (n : Nat) : magnitude? (Nat.toDigits 10 n) = some (n : Rat) := by
  have noExponent := dropWhile_toDigits n (p := fun c => decide (c ≠ 'e' ∧ c ≠ 'E')) fun c digit => by
    refine decide_eq_true ⟨?_, ?_⟩ <;> rintro rfl <;> exact absurd digit (by decide)
  rw [magnitude?, noExponent]
  exact decimal?_toDigits n

/-- A count is read as a number: none of its digits opens a sign or a name. -/
theorem word?_toDigits (n : Nat) : word? (Nat.toDigits 10 n) = some (.number n) := by
  have opens : ∀ c rest, Nat.toDigits 10 n = c :: rest → c.isDigit = true := fun c rest written =>
    isDigit_toDigits n c (by rw [written]; exact List.mem_cons_self)
  have number : number? (Nat.toDigits 10 n) = some (n : Rat) := by
    rw [number?.eq_def]
    split
    · next cs written => exact absurd (opens _ _ written) (by decide)
    · exact magnitude?_toDigits n
  have notNull : Nat.toDigits 10 n ≠ "null".toList :=
    fun same => absurd (opens 'n' _ same) (by decide)
  have notTrue : Nat.toDigits 10 n ≠ "true".toList :=
    fun same => absurd (opens 't' _ same) (by decide)
  have notFalse : Nat.toDigits 10 n ≠ "false".toList :=
    fun same => absurd (opens 'f' _ same) (by decide)
  rw [word?, if_neg notNull, if_neg notTrue, if_neg notFalse, number]
  rfl

end Scalars

section Documents

mutual

def value : Json → Value
  | null => .null
  | number n => .number n
  | string s => .string s
  | array items => .array (values items)
  | object fields => .object (fieldValues fields)

def values : List Json → List Value
  | [] => []
  | item :: rest => item.value :: values rest

def fieldValues : List (String × Json) → List (String × Value)
  | [] => []
  | (key, item) :: rest => (key, item.value) :: fieldValues rest

end

theorem blanks_newLine (depth : Nat) : Blanks (newLine depth) := by
  intro c mem
  rcases List.mem_cons.mp mem with rfl | mem
  · decide
  · rw [List.eq_of_mem_replicate mem]
    decide

theorem written_field (depth : Nat) (key : String) {v : Value} {t a : List Char}
    (written : Written (.value v) t) (after : Blanks a) :
    Written (.member (key, v)) (newLine depth ++ quote key ++ [':', ' '] ++ t ++ a) := by
  have blank : Blanks [' '] := by simp [Blanks, isBlank]
  have member := Written.member (blanks_newLine depth) (spelled_escaped key.toList)
    (a := []) (by simp [Blanks]) (.element blank written after)
  simpa [quote] using member

mutual

theorem written_write (depth : Nat) : ∀ json : Json, Written (.value json.value) (json.write depth)
  | null => .word rfl
  | number n => .word (word?_toDigits n)
  | string s => by
    simpa [write, value, quote] using Written.string (spelled_escaped s.toList)
  | array [] => .emptyArray (b := []) (by simp [Blanks])
  | array (item :: rest) => by
    have inside := written_items (depth + 1) depth rest (written_write (depth + 1) item)
    simpa [write, value, values] using Written.array inside
  | object [] => .emptyObject (b := []) (by simp [Blanks])
  | object ((key, item) :: rest) => by
    have inside := written_fields (depth + 1) depth rest key (written_write (depth + 1) item)
    simpa [write, value, fieldValues] using Written.object inside

/-- The blanks before the closing bracket belong to the last item. -/
theorem written_items (depth outer : Nat) : ∀ (rest : List Json) {v : Value} {t : List Char},
    Written (.value v) t →
      Written (.elements (v :: values rest))
        (newLine depth ++ t ++ writeItems depth rest ++ newLine outer)
  | [], v, t, written => by
    have element := Written.element (blanks_newLine depth) written (blanks_newLine outer)
    simpa [writeItems, values] using Written.lastElement element
  | item :: rest, v, t, written => by
    have element := Written.element (blanks_newLine depth) written (a := []) (by simp [Blanks])
    have others := written_items depth outer rest (written_write depth item)
    simpa [writeItems, values] using Written.elements element others

theorem written_fields (depth outer : Nat) :
    ∀ (rest : List (String × Json)) (key : String) {v : Value} {t : List Char},
      Written (.value v) t →
        Written (.members ((key, v) :: fieldValues rest))
          (newLine depth ++ quote key ++ [':', ' '] ++ t ++ writeFields depth rest ++ newLine outer)
  | [], key, v, t, written => by
    simpa [writeFields, fieldValues] using
      Written.lastMember (written_field depth key written (blanks_newLine outer))
  | (name, item) :: rest, key, v, t, written => by
    have member := written_field depth key written (a := []) (by simp [Blanks])
    have others := written_fields depth outer rest name (written_write depth item)
    simpa [writeFields, fieldValues] using Written.members member others

end

theorem values_map {α : Type} (f : α → Json) (l : List α) :
    values (l.map f) = l.map fun a => (f a).value := by
  induction l with
  | nil => rfl
  | cons a l ih => simp [values, ih]

end Documents

end Json

namespace Value

def nat? : Value → Option Nat
  | .number q => if q = (q.num.toNat : Rat) then some q.num.toNat else none
  | _ => none

def string? : Value → Option String
  | .string s => some s
  | _ => none

variable {α : Type}

def list? (item? : Value → Option α) : Value → Option (List α)
  | .array items => items.mapM item?
  | _ => none

def optional? (item? : Value → Option α) : Value → Option (Option α)
  | .null => some none
  | v => (item? v).map some

def field? (name : String) (item? : Value → Option α) : Value → Option α
  | .object fields => (fields.lookup name).bind item?
  | _ => none

section Fields

variable {name key : String} {item? : Value → Option α} {v : Value} {fields : List (String × Value)}

theorem field?_found : field? name item? (.object ((name, v) :: fields)) = item? v := by
  simp only [field?, List.lookup_cons_self, Option.bind_some]

theorem field?_other (other : name ≠ key) :
    field? name item? (.object ((key, v) :: fields)) = field? name item? (.object fields) := by
  simp only [field?, List.lookup_cons, beq_eq_false_iff_ne.mpr other]

end Fields

theorem nat?_number (n : Nat) : nat? (.number n) = some n := by simp [nat?]

theorem list?_map {item? : Value → Option α} {f : α → Json} (back : ∀ a, item? (f a).value = some a)
    (l : List α) : list? item? (Json.array (l.map f)).value = some l := by
  rw [Json.value, Json.values_map, list?]
  induction l with
  | nil => rfl
  | cons a l ih => simp [back, ih]

theorem optional?_optionally {item? : Value → Option α} {f : α → Json}
    (back : ∀ a, item? (f a).value = some a) (shown : ∀ a, (f a).value ≠ .null) (o : Option α) :
    optional? item? (Document.optionally f o).value = some o := by
  cases o with
  | none => rfl
  | some a => simp [Document.optionally, optional?, shown a, back a]

end Value

namespace Document
open Value

def kind? (v : Value) : Option FindingKind :=
  v.string?.bind fun s => [.deadFile, .deadFunction, .unusedImport].find? fun kind => kind.label = s

def finding? (v : Value) : Option Finding := do
  let kind ← v.field? "kind" kind?
  let file ← v.field? "file" string?
  let line ← v.field? "line" (optional? nat?)
  let name ← v.field? "name" (optional? string?)
  let confidence ← v.field? "confidence" nat?
  let lines ← v.field? "lines" nat?
  let detail ← v.field? "detail" string?
  return { kind, file, line, name, confidence, lines, detail }

def diagnostic? (v : Value) : Option Diagnostic := do
  let file ← v.field? "file" string?
  let message ← v.field? "message" string?
  return { file, message }

def statistics? (v : Value) : Option Statistics := do
  let filesAnalyzed ← v.field? "files_analyzed" nat?
  let filesReachable ← v.field? "files_reachable" nat?
  let filesUnreachable ← v.field? "files_unreachable" nat?
  let filesSkipped ← v.field? "files_skipped" nat?
  let deadFiles ← v.field? "dead_files" nat?
  let deadFunctions ← v.field? "dead_functions" nat?
  let unusedImports ← v.field? "unused_imports" nat?
  let reclaimableBytes ← v.field? "reclaimable_bytes" nat?
  let reclaimableLines ← v.field? "reclaimable_lines" nat?
  let timestamp ← v.field? "timestamp" string?
  return { filesAnalyzed, filesReachable, filesUnreachable, filesSkipped, deadFiles, deadFunctions,
           unusedImports, reclaimableBytes, reclaimableLines, timestamp }

def result? (v : Value) : Option AnalysisResult := do
  let deadFiles ← v.field? "dead_files" (list? finding?)
  let deadFunctions ← v.field? "dead_functions" (list? finding?)
  let unusedImports ← v.field? "unused_imports" (list? finding?)
  let diagnostics ← v.field? "diagnostics" (list? diagnostic?)
  let stats ← v.field? "stats" statistics?
  return { deadFiles, deadFunctions, unusedImports, diagnostics, stats }

theorem kind?_label (kind : FindingKind) : kind? (.string kind.label) = some kind := by
  cases kind <;> decide

/- Each record is found again: a name leads to the field that was written under it. -/
section Records

attribute [local simp] Json.value Json.fieldValues field?_found field?_other string? nat?_number
  kind?_label

theorem finding?_value (f : Finding) : finding? (finding f).value = some f := by
  have line : optional? nat? (optionally .number f.line).value = some f.line :=
    optional?_optionally nat?_number (by simp) f.line
  have name : optional? string? (optionally .string f.name).value = some f.name :=
    optional?_optionally (fun _ => rfl) (by simp) f.name
  simp [finding?, finding, line, name]

theorem diagnostic?_value (d : Diagnostic) : diagnostic? (diagnostic d).value = some d := by
  simp [diagnostic?, diagnostic]

theorem statistics?_value (s : Statistics) : statistics? (statistics s).value = some s := by
  simp [statistics?, statistics]

theorem result?_value (r : AnalysisResult) : result? (result r).value = some r := by
  have findings := fun l => list?_map finding?_value l
  have diagnostics := list?_map diagnostic?_value r.diagnostics
  simp only [Json.value] at findings diagnostics
  simp [result?, result, findings, diagnostics, statistics?_value]

end Records

theorem written_render (r : AnalysisResult) :
    Written (.element (result r).value) (render r).toList := by
  have blank : Blanks ['\n'] := by simp [Blanks, isBlank]
  have element := Written.element (b := []) (by simp [Blanks]) (Json.written_write 0 (result r)) blank
  simpa [render] using element

/-- The report of any result is one document and a line end. It stands for one value only, a reader
    finds that value, and the value tells the whole result: so each result has a report of its own. -/
theorem render_loses_nothing (r : AnalysisResult) :
    ∃ (document : String) (v : Value), render r = document ++ "\n" ∧
      Written (.value v) document.toList ∧
      (∀ w, Written (.element w) (render r).toList ↔ w = v) ∧
      Value.read document = some v ∧ Value.read (render r) = some v ∧
      result? v = some r ∧ ∀ other, render other = render r → other = r := by
  have whole := written_render r
  have document := Json.written_write 0 (result r)
  refine ⟨String.ofList ((result r).write 0), (result r).value, by simp [render],
    by simpa using document, fun w => ⟨fun written => ?_, ?_⟩, ?_, read_of_written whole,
    result?_value r, fun other same => ?_⟩
  · exact Option.some.inj ((read_of_written written).symm.trans (read_of_written whole))
  · rintro rfl
    exact whole
  · refine read_of_written ?_
    simpa using Written.element (b := []) (a := []) (by simp [Blanks]) document (by simp [Blanks])
  · have values := read_of_written (written_render other)
    rw [same, read_of_written whole] at values
    have results := congrArg result? (Option.some.inj values)
    rw [result?_value, result?_value] at results
    exact (Option.some.inj results).symm

end Document
end DeadCode.Report
