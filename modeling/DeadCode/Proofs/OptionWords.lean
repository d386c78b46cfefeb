import DeadCode.Options

/- What one more option changes. Words that hold a setting are compared with the same words without
   it: two readers go through the rest side by side, and whatever the one with the setting takes the
   other takes too. In the end the options differ by the assignment of that setting. -/
namespace DeadCode

theorem exists_of_bind_ok {ε α β : Type} {first : Except ε α} {later : α → Except ε β} {b : β}
    (done : first >>= later = .ok b) : ∃ a, first = .ok a ∧ later a = .ok b := by
  cases first with
  | error problem => cases done
  | ok a => exact ⟨a, rfl, done⟩

namespace Setting

def name : Setting → String
  | .root => "root"
  | .minLines => "min-lines"
  | .format => "format"
  | .output => "output"
  | .exclude => "exclude"

theorem ofName?_name (setting : Setting) : ofName? setting.name = some setting := by
  cases setting <;> decide

end Setting

namespace Options

variable {o set : Options} {setting other : Setting} {value : String} {f g : Options → Options}

inductive Adds (setting : Setting) (value : String) : List String → List String → Prop
  | apart (front back : List String) :
      Adds setting value (front ++ back) (front ++ ("--" ++ setting.name) :: value :: back)
  | joined (front back : List String) :
      Adds setting value (front ++ back) (front ++ ("--" ++ setting.name ++ "=" ++ value) :: back)

inductive Update : Setting → (Options → Options) → Prop
  | root (path : String) : Update .root fun o => { o with root := some path }
  | minLines (n : Nat) : Update .minLines fun o => { o with minLines := n }
  | format (f : Format) : Update .format fun o => { o with format := f }
  | output (path : String) : Update .output fun o => { o with output := some path }
  | exclude (name : String) : Update .exclude fun o => { o with exclude := o.exclude ++ [name] }

theorem exists_update (assigned : o.assign setting value = .ok set) :
    ∃ f, Update setting f ∧ ∀ o, Options.assign o setting value = .ok (f o) := by
  cases setting with
  | root =>
    obtain ⟨path, valid, _⟩ := exists_of_bind_ok assigned
    exact ⟨_, .root path, fun o => by rw [assign, valid]; rfl⟩
  | output =>
    obtain ⟨path, valid, _⟩ := exists_of_bind_ok assigned
    exact ⟨_, .output path, fun o => by rw [assign, valid]; rfl⟩
  | minLines =>
    cases counted : count? value with
    | none => simp [assign, counted] at assigned
    | some n => exact ⟨_, .minLines n, fun o => by simp [assign, counted]⟩
  | format =>
    by_cases text : value = "text"
    · exact ⟨_, .format .text, fun o => by simp [assign, text]⟩
    · by_cases json : value = "json"
      · exact ⟨_, .format .json, fun o => by simp [assign, json]⟩
      · simp [assign, text, json] at assigned
  | exclude => exact ⟨_, .exclude value, fun o => rfl⟩

theorem Update.comm (first : Update setting f) (second : Update other g) (apart : other ≠ setting)
    (o : Options) : f (g o) = g (f o) := by
  cases first <;> cases second <;> first | rfl | exact absurd rfl apart

theorem Update.verbose (update : Update setting f) (o : Options) : (f o).verbose = o.verbose := by
  cases update <;> rfl

theorem Update.quiet (update : Update setting f) (o : Options) : (f o).quiet = o.quiet := by
  cases update <;> rfl

theorem Update.with_verbose (update : Update setting f) (o : Options) (n : Nat) :
    f { o with verbose := n } = { f o with verbose := n } := by
  cases update <;> rfl

theorem Update.with_quiet (update : Update setting f) (o : Options) (b : Bool) :
    f { o with quiet := b } = { f o with quiet := b } := by
  cases update <;> rfl

end Options

namespace OptionReader

variable {r s less more : OptionReader} {setting : Setting} {value word : String}
variable {rest : List String}

def takeWord (r : OptionReader) (word : String) : Except UsageError OptionReader :=
  match word.toList with
  | '-' :: '-' :: '=' :: _ => r.plain word
  | '-' :: '-' :: text => r.long (splitValue text).1 (splitValue text).2
  | '-' :: c :: letters => r.short (c :: letters)
  | _ => r.plain word

theorem read_cons (known : word.toList ≠ ['-', '-']) :
    r.read (word :: rest) = r.takeWord word >>= (·.read rest) := by
  rw [read, takeWord]
  split <;> simp_all

theorem read_dashes (dashes : word.toList = ['-', '-']) :
    r.read (word :: rest) = if rest.isEmpty then r.settle else .error .unknownArgument := by
  simp only [read, dashes]

theorem waiting_of_give (done : r.give setting value = .ok s) : s.waiting = none := by
  rw [give] at done
  split at done
  · cases done
  · obtain ⟨options, _, made⟩ := exists_of_bind_ok done
    cases made
    rfl

theorem waiting_of_settle (done : r.settle = .ok s) : s.waiting = none := by
  rw [settle] at done
  split at done
  · next idle => cases done; exact idle
  · cases done
  · exact waiting_of_give done

structure Extra (setting : Setting) (value : String) (less more : OptionReader) : Prop where
  options : less.options.assign setting value = .ok more.options
  given : ∀ other, other ∈ more.given ↔ other = setting ∨ other ∈ less.given

/-- Two readers side by side. They wait for the value of the same setting, or neither lacks a value
    and they settle with one setting more in the second. -/
inductive Beside (setting : Setting) (value : String) (less more : OptionReader) : Prop
  | waiting {unfilled : Setting} (extra : Extra setting value less more)
      (first : less.waiting = some (unfilled, none)) (second : more.waiting = some (unfilled, none))
  | settling (filled : ∀ other, more.waiting ≠ some (other, none))
      (settles : ∀ after, more.settle = .ok after →
        ∃ settled, less.settle = .ok settled ∧ Extra setting value settled after)

theorem settle_of_idle (idle : r.waiting = none) : r.settle = .ok r := by rw [settle, idle]

theorem settle_of_unfilled (unfilled : r.waiting = some (setting, none)) :
    r.settle = .error .invalidValue := by rw [settle, unfilled]

theorem Extra.beside (extra : Extra setting value less more) (first : less.waiting = none)
    (second : more.waiting = none) : Beside setting value less more := by
  refine .settling (fun other same => by simp [second] at same) fun after done => ?_
  rw [settle_of_idle second] at done
  cases done
  exact ⟨less, settle_of_idle first, extra⟩

theorem Beside.settle {after : OptionReader} (beside : Beside setting value less more)
    (done : more.settle = .ok after) :
    ∃ settled, less.settle = .ok settled ∧ Extra setting value settled after := by
  cases beside with
  | waiting _ _ second => simp [settle_of_unfilled second] at done
  | settling _ settles => exact settles after done

section Steps

variable {after : OptionReader} (single : setting ≠ .exclude)
include single

theorem Extra.give {other : Setting} {text : String} (extra : Extra setting value less more)
    (done : more.give other text = .ok after) :
    ∃ given, less.give other text = .ok given ∧ Extra setting value given after := by
  unfold OptionReader.give at done
  split at done
  · cases done
  · next free =>
    obtain ⟨options, assigned, made⟩ := exists_of_bind_ok done
    cases made
    obtain ⟨f, update, sets⟩ := Options.exists_update extra.options
    obtain ⟨g, change, assigns⟩ := Options.exists_update assigned
    have fresh : ¬(other != .exclude && less.given.contains other) = true := by
      intro taken
      apply free
      simp only [Bool.and_eq_true, List.contains_iff_mem] at taken ⊢
      exact ⟨taken.1, (extra.given other).mpr (.inr taken.2)⟩
    have apart : other ≠ setting := by
      rintro rfl
      apply free
      simp [single, (extra.given other).mpr (.inl rfl)]
    refine ⟨{ options := g less.options, given := other :: less.given }, ?_, ?_, ?_⟩
    · rw [OptionReader.give, if_neg fresh, assigns]
      rfl
    · have set := extra.options
      rw [sets, Except.ok.injEq] at set
      rw [assigns, ← set, Except.ok.injEq] at assigned
      show (g less.options).assign setting value = .ok options
      rw [sets, ← assigned, update.comm change apart]
    · intro s
      simp only [List.mem_cons, extra.given]
      exact or_left_comm

omit single in
theorem Beside.raise {flag : Flag} (beside : Beside setting value less more)
    (done : more.raise flag = .ok after) :
    ∃ raised, less.raise flag = .ok raised ∧ Beside setting value raised after := by
  obtain ⟨settled, settling, raised⟩ := exists_of_bind_ok done
  obtain ⟨start, first, extra⟩ := beside.settle settling
  have idle := waiting_of_settle first
  have idle' := waiting_of_settle settling
  obtain ⟨f, update, sets⟩ := Options.exists_update extra.options
  have set : f start.options = settled.options := Except.ok.inj ((sets _).symm.trans extra.options)
  cases flag with
  | help => cases raised
  | verbose =>
    cases raised
    refine ⟨{ start with options.verbose := min Options.verboseLimit (start.options.verbose + 1) },
      by rw [OptionReader.raise, first]; rfl, Extra.beside ⟨?_, extra.given⟩ idle idle'⟩
    rw [sets, update.with_verbose, set, ← update.verbose start.options, set]
  | quiet =>
    simp only [← set, update.quiet] at raised
    split at raised
    · cases raised
    · next loud =>
      cases raised
      refine ⟨{ start with options.quiet := true }, ?_, Extra.beside ⟨?_, extra.given⟩ idle idle'⟩
      · rw [OptionReader.raise, first]
        exact if_neg loud
      · exact (sets _).trans (congrArg _ (update.with_quiet start.options true))

omit single in
theorem Beside.short {letters : List Char} (beside : Beside setting value less more)
    (done : more.short letters = .ok after) :
    ∃ taken, less.short letters = .ok taken ∧ Beside setting value taken after := by
  induction letters generalizing less more with
  | nil =>
    cases done
    exact ⟨less, rfl, beside⟩
  | cons c letters ih =>
    rw [OptionReader.short] at done
    split at done
    · next flag known =>
      obtain ⟨next, raised, later⟩ := exists_of_bind_ok done
      obtain ⟨start, first, beside⟩ := beside.raise raised
      obtain ⟨taken, shorter, beside⟩ := ih beside later
      refine ⟨taken, ?_, beside⟩
      rw [OptionReader.short, known]
      simp only [first]
      exact shorter
    · cases done

theorem Beside.plain (beside : Beside setting value less more) (done : more.plain word = .ok after) :
    ∃ taken, less.plain word = .ok taken ∧ Beside setting value taken after := by
  cases beside with
  | settling filled =>
    rw [OptionReader.plain] at done
    split at done
    · next other unfilled => exact absurd unfilled (filled other)
    · cases done
  | @waiting unfilled extra first second =>
    simp only [OptionReader.plain, second, Except.ok.injEq] at done
    subst done
    refine ⟨{ less with waiting := some (unfilled, some word) },
      by simp only [OptionReader.plain, first], .settling (by simp) fun after settled => ?_⟩
    have extra' : Extra setting value { less with waiting := some (unfilled, some word) }
        { more with waiting := some (unfilled, some word) } := ⟨extra.options, extra.given⟩
    exact extra'.give single settled

theorem Beside.long {name : String} {given : Option String} (beside : Beside setting value less more)
    (done : more.long name given = .ok after) :
    ∃ taken, less.long name given = .ok taken ∧ Beside setting value taken after := by
  unfold OptionReader.long at done ⊢
  split at done
  · obtain ⟨settled, settling, later⟩ := exists_of_bind_ok done
    obtain ⟨start, first, extra⟩ := beside.settle settling
    rw [first]
    cases given with
    | some text =>
      obtain ⟨given, gives, extra⟩ := extra.give single later
      exact ⟨given, gives, extra.beside (waiting_of_give gives) (waiting_of_give later)⟩
    | none =>
      cases later
      exact ⟨_, rfl, .waiting ⟨extra.options, extra.given⟩ rfl rfl⟩
  · split at done
    · cases done
    · next bare =>
      rw [if_neg bare]
      exact beside.raise done
  · cases done

theorem Beside.takeWord (beside : Beside setting value less more)
    (done : more.takeWord word = .ok after) :
    ∃ taken, less.takeWord word = .ok taken ∧ Beside setting value taken after := by
  unfold OptionReader.takeWord at done ⊢
  split at done
  · exact beside.plain single done
  · exact beside.long single done
  · exact beside.short done
  · exact beside.plain single done

theorem Beside.read {words : List String} (beside : Beside setting value less more)
    (done : more.read words = .ok after) :
    ∃ taken, less.read words = .ok taken ∧ Extra setting value taken after := by
  induction words generalizing less more with
  | nil => exact beside.settle done
  | cons word words ih =>
    by_cases dashes : word.toList = ['-', '-']
    · rw [read_dashes dashes] at done ⊢
      split at done
      · next ends => simpa only [ends, if_true] using beside.settle done
      · cases done
    · rw [read_cons dashes] at done ⊢
      obtain ⟨next, taken, later⟩ := exists_of_bind_ok done
      obtain ⟨start, first, beside⟩ := beside.takeWord single taken
      obtain ⟨last, reads, extra⟩ := ih beside later
      exact ⟨last, by rw [first]; exact reads, extra⟩

end Steps

/-- While a value is missing only a plain word can follow. -/
theorem takeWord_of_unfilled (unfilled : r.waiting = some (setting, none))
    (done : r.takeWord word = .ok s) : s = { r with waiting := some (setting, some word) } := by
  have stuck : ∀ flag, r.raise flag = .error .invalidValue := fun flag => by
    rw [raise, settle_of_unfilled unfilled]
    rfl
  unfold takeWord at done
  split at done
  · simpa [plain, unfilled] using done.symm
  · unfold long at done
    split at done
    · rw [settle_of_unfilled unfilled] at done
      cases done
    · split at done
      · cases done
      · simp [stuck] at done
    · cases done
  · rw [short] at done
    split at done
    · simp only [stuck] at done
      cases done
    · cases done
  · simpa [plain, unfilled] using done.symm

theorem takeWord_name (r : OptionReader) (setting : Setting) :
    r.takeWord ("--" ++ setting.name) = r.settle.map ({ · with waiting := some (setting, none) }) := by
  have taken : r.takeWord ("--" ++ setting.name) = r.long setting.name none := by
    cases setting <;> rfl
  rw [taken, long, setting.ofName?_name]
  cases r.settle <;> rfl

theorem takeWord_joined (r : OptionReader) (setting : Setting) (value : String) :
    r.takeWord ("--" ++ setting.name ++ "=" ++ value) = r.settle >>= (·.give setting value) := by
  have taken : r.takeWord ("--" ++ setting.name ++ "=" ++ value) =
      r.long setting.name (some value) := by
    cases setting <;> simp [takeWord, splitValue, Setting.name]
  rw [taken, long, setting.ofName?_name]
  
theorem beside_of_settle {settled pending : OptionReader} (settling : r.settle = .ok settled)
    (filled : ∀ other, pending.waiting ≠ some (other, none))
    (settles : ∀ after, pending.settle = .ok after → settled.give setting value = .ok after) :
    Beside setting value r pending := by
  refine .settling filled fun after done => ⟨settled, settling, ?_⟩
  have gives := settles after done
  unfold give at gives
  split at gives
  · cases gives
  · obtain ⟨options, assigned, made⟩ := exists_of_bind_ok gives
    cases made
    exact ⟨assigned, fun other => List.mem_cons⟩

theorem exists_beside_of_apart {q : OptionReader}
    (done : r.read (("--" ++ setting.name) :: value :: rest) = .ok q) :
    ∃ pending, Beside setting value r pending ∧ pending.read rest = .ok q := by
  have named : ("--" ++ setting.name).toList ≠ ['-', '-'] := by cases setting <;> decide
  rw [read_cons named, takeWord_name] at done
  obtain ⟨start, started, later⟩ := exists_of_bind_ok done
  cases settling : r.settle with
  | error problem =>
    rw [settling] at started
    cases started
  | ok settled =>
    rw [settling] at started
    cases started
    by_cases dashes : value.toList = ['-', '-']
    · rw [read_dashes dashes, settle_of_unfilled rfl] at later
      split at later <;> cases later
    · rw [read_cons dashes] at later
      obtain ⟨pending, taken, later⟩ := exists_of_bind_ok later
      obtain rfl := takeWord_of_unfilled rfl taken
      refine ⟨_, beside_of_settle settling (by simp) fun after done => ?_, later⟩
      exact done

theorem exists_beside_of_joined {q : OptionReader}
    (done : r.read (("--" ++ setting.name ++ "=" ++ value) :: rest) = .ok q) :
    ∃ pending, Beside setting value r pending ∧ pending.read rest = .ok q := by
  have named : ("--" ++ setting.name ++ "=" ++ value).toList ≠ ['-', '-'] := by
    cases setting <;> simp [Setting.name]
  rw [read_cons named, takeWord_joined] at done
  obtain ⟨pending, given, later⟩ := exists_of_bind_ok done
  obtain ⟨settled, settling, gives⟩ := exists_of_bind_ok given
  have idle := waiting_of_give gives
  refine ⟨pending, beside_of_settle settling (by simp [idle]) fun after done => ?_, later⟩
  rw [settle_of_idle idle] at done
  rwa [← done]

/-- The words before the addition are read alike, so it is enough to look at what follows it. -/
theorem read_of_added (added : List String) {front back : List String} {q : OptionReader}
    (single : setting ≠ .exclude)
    (adds : ∀ r, r.read (added ++ back) = .ok q →
      ∃ pending, Beside setting value r pending ∧ pending.read back = .ok q)
    (some_added : added ≠ []) (done : r.read (front ++ (added ++ back)) = .ok q) :
    ∃ taken, r.read (front ++ back) = .ok taken ∧ Extra setting value taken q := by
  induction front generalizing r with
  | nil =>
    obtain ⟨pending, beside, later⟩ := adds r done
    exact beside.read single later
  | cons word front ih =>
    rw [List.cons_append] at done ⊢
    by_cases dashes : word.toList = ['-', '-']
    · rw [read_dashes dashes, if_neg (by simp [some_added])] at done
      cases done
    · rw [read_cons dashes] at done ⊢
      obtain ⟨next, taken, later⟩ := exists_of_bind_ok done
      rw [taken]
      exact ih later

end OptionReader

namespace Options

/-- Words with a setting added are options only if the words without it are, and then they differ
    by the assignment of the setting. -/
theorem exists_of_adds {setting : Setting} {value : String} {words more : List String} {o : Options}
    (single : setting ≠ .exclude) (adds : Adds setting value words more)
    (read : ofWords more = .ok o) :
    ∃ less, ofWords words = .ok less ∧ less.assign setting value = .ok o := by
  unfold ofWords at read ⊢
  cases done : OptionReader.read {} more with
  | error problem =>
    rw [done] at read
    cases read
  | ok q =>
    rw [done] at read
    cases read
    have taken : ∃ taken, OptionReader.read {} words = .ok taken ∧
        OptionReader.Extra setting value taken q := by
      cases adds with
      | apart front back =>
        exact OptionReader.read_of_added [_, value] single
          (fun _ => OptionReader.exists_beside_of_apart) (by simp) done
      | joined front back =>
        exact OptionReader.read_of_added [_] single
          (fun _ => OptionReader.exists_beside_of_joined) (by simp) done
    obtain ⟨taken, reads, extra⟩ := taken
    exact ⟨taken.options, by rw [reads]; rfl, extra.options⟩

end Options
end DeadCode
