import DeadCode.Proofs.IndexKeys

/- What a module name leads to, and that remembering answers changes none. The search below a name
   looks at one key only, the first from the name and its dot on; it finds what a look at all keys
   would find. A memory holds answers of the index alone, so no history of questions shows. -/
namespace DeadCode

namespace ModuleIndex

variable {files : List SourceFile} {index other : ModuleIndex} {m path : String}
variable {answer : Option String}

/-- What a name leads to: nothing if it is empty, its own file if it is a key, and otherwise the file
    of the least of all keys that go on after the name and a dot. -/
inductive Answers (index : ModuleIndex) (m : String) : Option String → Prop
  | blank (empty : m = "") : Answers index m none
  | exact {path : String} (named : m ≠ "") (known : index.modules.get? m = some path) :
      Answers index m (some path)
  | below {key path : String} (named : m ≠ "") (unknown : index.modules.get? m = none)
      (entry : index.modules.get? key = some path) (longer : Text.startsWith key (m ++ ".") = true)
      (least : ∀ other ∈ index.modules.keys, Text.startsWith other (m ++ ".") = true → ¬other < key) :
      Answers index m (some path)
  | nothing (named : m ≠ "") (unknown : index.modules.get? m = none)
      (alone : ∀ key ∈ index.modules.keys, ¬Text.startsWith key (m ++ ".") = true) :
      Answers index m none

/-- The marker of a package is one of the modules below it, so where there are none it is missing. -/
theorem markerOf?_of_nested? (alone : index.nested? m = none) : index.markerOf? m = none := by
  cases found : index.markerOf? m with
  | none => rfl
  | some path =>
    have longer : Text.startsWith (m ++ "." ++ Naming.markerModule) (m ++ ".") = true :=
      List.isPrefixOf_iff_prefix.mpr ⟨Naming.markerModule.toList, String.toList_append.symm⟩
    exact absurd longer (nested?_eq_none_iff.mp alone _ (NameMap.mem_keys.mpr ⟨path, found⟩))

theorem resolve_of_ne_empty (named : m ≠ "") :
    index.resolve m = (index.modules.get? m).or (index.nested? m) := by
  have marker : (index.nested? m).or (index.markerOf? m) = index.nested? m := by
    cases nested : index.nested? m with
    | none => rw [markerOf?_of_nested? nested]; rfl
    | some path => rfl
  rw [resolve, if_neg (by simpa using named), marker]

theorem answers_resolve (index : ModuleIndex) (m : String) : index.Answers m (index.resolve m) := by
  by_cases empty : m = ""
  · subst empty
    exact .blank rfl
  · rw [resolve_of_ne_empty empty]
    cases known : index.modules.get? m with
    | some path => exact .exact empty known
    | none =>
      cases nested : index.nested? m with
      | none => exact .nothing empty known (nested?_eq_none_iff.mp nested)
      | some path =>
        obtain ⟨key, entry, longer, least⟩ := nested?_eq_some_iff.mp nested
        exact .below empty known entry longer least

theorem resolve_of_answers (answers : index.Answers m answer) : index.resolve m = answer := by
  cases answers with
  | blank empty =>
    subst empty
    rfl
  | exact named known =>
    rw [resolve_of_ne_empty named, known]
    rfl
  | below named unknown entry longer least =>
    rw [resolve_of_ne_empty named, unknown, nested?_eq_some_iff.mpr ⟨_, entry, longer, least⟩]
    rfl
  | nothing named unknown alone =>
    rw [resolve_of_ne_empty named, unknown, nested?_eq_none_iff.mpr alone]
    rfl

theorem resolve_eq_iff_answers : index.resolve m = answer ↔ index.Answers m answer :=
  ⟨fun same => same ▸ answers_resolve index m, resolve_of_answers⟩

/-- Keys that are neither the name nor go on after it and a dot have no say. -/
theorem Answers.congr (answers : index.Answers m answer)
    (same : ∀ key, key = m ∨ Text.startsWith key (m ++ ".") = true →
      other.modules.get? key = index.modules.get? key) : other.Answers m answer := by
  have keys : ∀ key ∈ other.modules.keys, Text.startsWith key (m ++ ".") = true →
      key ∈ index.modules.keys := by
    intro key known longer
    rw [NameMap.mem_keys] at known ⊢
    rwa [← same key (.inr longer)]
  cases answers with
  | blank empty => exact .blank empty
  | exact named known => exact .exact named ((same m (.inl rfl)).trans known)
  | below named unknown entry longer least =>
    exact .below named ((same m (.inl rfl)).trans unknown) ((same _ (.inr longer)).trans entry) longer
      fun key known longer => least key (keys key known longer) longer
  | nothing named unknown alone =>
    exact .nothing named ((same m (.inl rfl)).trans unknown)
      fun key known longer => alone key (keys key known longer) longer

theorem listed_of_get? {k : String} (found : (build files).modules.get? k = some path) :
    Listed files path := by
  rw [get?_build] at found
  obtain ⟨file, hf, claimed⟩ := List.mem_flatMap.mp (NameMap.mem_of_first? found)
  rcases List.mem_cons.mp claimed with own | marker
  · cases own
    exact ⟨file, hf, rfl⟩
  · exact known_iff.mp (NameSet.contains_iff.mp (List.mem_filter.mp marker).2)

theorem listed_of_resolve (found : (build files).resolve m = some path) : Listed files path := by
  cases resolve_eq_iff_answers.mp found with
  | exact _ known => exact listed_of_get? known
  | below _ _ entry => exact listed_of_get? entry

theorem listed_of_target? {imports : List String}
    (found : (build files).target? imports m = some path) : Listed files path := by
  unfold target? at found
  split at found
  · rcases Option.or_eq_some_iff.mp found with own | ⟨_, marker⟩
    · exact listed_of_get? own
    · exact listed_of_get? marker
  · exact listed_of_resolve found

end ModuleIndex

namespace Resolver

variable {r : Resolver} {m : String}

def Sound (r : Resolver) : Prop :=
  ∀ m answer, r.memory.get? m = some answer → answer = r.index.resolve m

theorem sound_fresh (index : ModuleIndex) : Sound { index } := by
  intro m answer recalled
  simp at recalled

structure Gives {α : Type} (r : Resolver) (result : α × Resolver) (answer : α) : Prop where
  answer : result.1 = answer
  index : result.2.index = r.index
  sound : result.2.Sound

theorem resolve_gives (sound : r.Sound) (m : String) : r.Gives (r.resolve m) (r.index.resolve m) := by
  unfold resolve
  cases recalled : r.memory.get? m with
  | some answer => exact ⟨sound m answer recalled, rfl, sound⟩
  | none =>
    refine ⟨rfl, rfl, ?_⟩
    intro key answer found
    simp only [NameMap.get?_insert] at found
    split at found
    · next same =>
      cases found
      rw [same]
    · exact sound key answer found

theorem target?_gives (sound : r.Sound) (imports : List String) (m : String) :
    r.Gives (r.target? imports m) (r.index.target? imports m) := by
  unfold target? ModuleIndex.target?
  split
  · exact ⟨rfl, rfl, sound⟩
  · exact resolve_gives sound m

theorem resolveEach_gives (imports modules : List String) (sound : r.Sound) :
    r.Gives (resolveEach imports modules r)
      (modules.filterMap fun m => (r.index.target? imports m).map (m, ·)) := by
  induction modules generalizing r with
  | nil => exact ⟨rfl, rfl, sound⟩
  | cons m rest ih =>
    have first := target?_gives sound imports m
    have later := ih first.sound
    refine ⟨?_, later.index.trans first.index, later.sound⟩
    have others := later.answer
    rw [first.index] at others
    show ((r.target? imports m).1.map (m, ·)).toList ++
      (resolveEach imports rest (r.target? imports m).2).1 = _
    rw [first.answer, others, List.filterMap_cons]
    cases r.index.target? imports m <;> rfl

inductive Query where
  | module (name : String)
  | imports (names : List String)

inductive Answer where
  | file (found : Option String)
  | targets (found : List (String × String))

def Answer.files : Answer → List String
  | .file found => found.toList
  | .targets found => found.map (·.2)

def ask (r : Resolver) : Query → Answer × Resolver
  | .module name => let (found, r) := r.resolve name; (.file found, r)
  | .imports names => let (found, r) := r.resolveImports names; (.targets found, r)

def askAll (r : Resolver) : List Query → List Answer × Resolver
  | [] => ([], r)
  | query :: rest =>
    let (answer, r) := r.ask query
    let (others, r) := askAll r rest
    (answer :: others, r)

def indexAnswer (index : ModuleIndex) : Query → Answer
  | .module name => .file (index.resolve name)
  | .imports names => .targets (index.resolveImports names)

theorem ask_gives (sound : r.Sound) (query : Query) :
    r.Gives (r.ask query) (indexAnswer r.index query) := by
  cases query with
  | module name =>
    obtain ⟨answer, index, sound⟩ := resolve_gives sound name
    exact ⟨congrArg Answer.file answer, index, sound⟩
  | imports names =>
    obtain ⟨answer, index, sound⟩ := resolveEach_gives names names sound
    exact ⟨congrArg Answer.targets answer, index, sound⟩

theorem askAll_gives (queries : List Query) (sound : r.Sound) :
    r.Gives (r.askAll queries) (queries.map (indexAnswer r.index)) := by
  induction queries generalizing r with
  | nil => exact ⟨rfl, rfl, sound⟩
  | cons query rest ih =>
    have first := ask_gives sound query
    have later := ih first.sound
    refine ⟨?_, later.index.trans first.index, later.sound⟩
    show (r.ask query).1 :: ((r.ask query).2.askAll rest).1 = _
    rw [first.answer, later.answer, first.index, List.map_cons]

theorem listed_of_indexAnswer {files : List SourceFile} {query : Query} {path : String}
    (mem : path ∈ (indexAnswer (ModuleIndex.build files) query).files) :
    ModuleIndex.Listed files path := by
  cases query with
  | module name => exact ModuleIndex.listed_of_resolve (Option.mem_toList.mp mem)
  | imports names =>
    obtain ⟨pair, among, rfl⟩ := List.mem_map.mp mem
    obtain ⟨name, _, found⟩ := List.mem_filterMap.mp among
    obtain ⟨path, target, rfl⟩ := Option.map_eq_some_iff.mp found
    exact ModuleIndex.listed_of_target? target

/-- Whatever has been asked before, a question has the answer that a fresh memory gives. A name leads
    to its own file or to the least key below it, the marker of a package never being needed; other
    keys have no say; and every answer names files that are listed. -/
theorem answers_forget_history (files : List SourceFile) (queries : List Query) :
    let fresh : Resolver := { index := ModuleIndex.build files }
    (fresh.askAll queries).1 = queries.map (fun query => (fresh.ask query).1) ∧
      (∀ m answer, (fresh.resolve m).1 = answer ↔ (ModuleIndex.build files).Answers m answer) ∧
      (∀ m, (ModuleIndex.build files).modules.get? m = none →
        (ModuleIndex.build files).nested? m = none →
          (ModuleIndex.build files).markerOf? m = none) ∧
      (∀ m (other : ModuleIndex), (∀ key, key = m ∨ Text.startsWith key (m ++ ".") = true →
          other.modules.get? key = (ModuleIndex.build files).modules.get? key) →
        (Resolver.resolve { index := other } m).1 = (fresh.resolve m).1) ∧
      ∀ answer ∈ (fresh.askAll queries).1, ∀ path ∈ answer.files, ModuleIndex.Listed files path := by
  intro fresh
  have sound : fresh.Sound := sound_fresh _
  have single : ∀ query, (fresh.ask query).1 = indexAnswer (ModuleIndex.build files) query :=
    fun query => (ask_gives sound query).answer
  have whole := (askAll_gives queries sound).answer
  have plain : ∀ m, (fresh.resolve m).1 = (ModuleIndex.build files).resolve m :=
    fun m => (resolve_gives sound m).answer
  refine ⟨?_, ?_, ?_, ?_, ?_⟩
  · rw [whole]
    exact List.map_congr_left fun query _ => (single query).symm
  · intro m answer
    rw [plain]
    exact ModuleIndex.resolve_eq_iff_answers
  · exact fun m _ alone => ModuleIndex.markerOf?_of_nested? alone
  · intro m other same
    rw [plain, (resolve_gives (sound_fresh other) m).answer]
    exact ModuleIndex.resolve_of_answers ((ModuleIndex.answers_resolve _ m).congr same)
  · intro answer mem path inside
    rw [whole] at mem
    obtain ⟨query, _, rfl⟩ := List.mem_map.mp mem
    exact listed_of_indexAnswer inside

example : (ModuleIndex.build [SourceFile.ofPath "m-x/y.py", SourceFile.ofPath "mx.py"]).resolve "m" =
    none := by decide

end Resolver
end DeadCode
