import BraceLang.Cli.Command

/-! # Arguments — what a row of them adds up to

    The flags among some arguments count wherever they stand and however often
    they come; of the other arguments only the last one counts.  So the request
    that arguments add up to can be read off the whole row (`foldlM_add`),
    provided that every flag among them is known.  The first flag that is not
    known is refused, whatever else there is; so the command of any arguments can
    be read off them (`ofArgs_eq`). -/

namespace BraceLang

namespace Cli

/-- The spellings of the flag that asks for the tokens. -/
def tokensFlags : List String := ["-t", "--tokens"]

/-- The spellings of the flag that asks for warnings. -/
def verboseFlags : List String := ["-v", "--verbose"]

/-- The spellings of the flag that asks for help. -/
def helpFlags : List String := ["-h", "--help"]

/-- All spellings of flags. -/
def knownFlags : List String := tokensFlags ++ verboseFlags ++ helpFlags

/-- The argument begins as flags do. -/
def isFlag (arg : String) : Bool := arg.toList.head? = some '-'

/-- The last of some arguments that is no flag. -/
def scriptOf? (args : List String) : Option String :=
  (args.filter fun arg => !isFlag arg).getLast?

theorem scriptOf?_cons (arg : String) (args : List String) :
    scriptOf? (arg :: args)
      = (scriptOf? args).or (if isFlag arg then none else some arg) := by
  rw [scriptOf?, scriptOf?, List.filter_cons]
  by_cases h : isFlag arg
  · simp [h]
  · simp only [h, Bool.not_false, if_true, Bool.false_eq_true, if_false]
    rw [List.getLast?_cons]
    cases (args.filter fun arg => !isFlag arg).getLast? <;> rfl

theorem exists_scriptOf? {args : List String} (h : ∃ arg ∈ args, ¬ isFlag arg) :
    ∃ filename, scriptOf? args = some filename := by
  obtain ⟨arg, hmem, hflag⟩ := h
  have hne : args.filter (fun arg => !isFlag arg) ≠ [] := by
    intro hnil
    refine List.filter_eq_nil_iff.mp hnil arg hmem ?_
    simpa using hflag
  exact ⟨_, List.getLast?_eq_some_getLast hne⟩

theorem isFlag_of_known {arg : String} (h : arg ∈ knownFlags) : isFlag arg := by
  have hall : ∀ arg ∈ knownFlags, isFlag arg := by decide
  exact hall arg h

/-- What an argument says, by the group of flags that it belongs to. -/
theorem ofString_eq (arg : String) :
    Argument.ofString arg
      = if arg ∈ tokensFlags then .tokensFlag
        else if arg ∈ verboseFlags then .verboseFlag
        else if arg ∈ helpFlags then .helpFlag
        else if isFlag arg then .unknownFlag arg
        else .positional arg := by
  simp only [Argument.ofString, tokensFlags, verboseFlags, helpFlags, isFlag, List.mem_cons,
    List.not_mem_nil, or_false, Bool.or_eq_true, decide_eq_true_eq]

namespace Request

/-- The request with one more argument, as far as it is known. -/
def extend (r : Request) (arg : String) : Request where
  options :=
    { showTokens := r.options.showTokens || arg ∈ tokensFlags
      verbose := r.options.verbose || arg ∈ verboseFlags }
  help := r.help || arg ∈ helpFlags
  script := if isFlag arg then r.script else some arg

/-- A known flag and a positional argument are taken in. -/
theorem add_of_known (r : Request) {arg : String} (h : isFlag arg → arg ∈ knownFlags) :
    r.add arg = .ok (r.extend arg) := by
  obtain ⟨⟨showTokens, verbose⟩, help, script⟩ := r
  by_cases hflag : isFlag arg
  · have hcases := h hflag
    simp only [knownFlags, tokensFlags, verboseFlags, helpFlags, List.cons_append,
      List.nil_append, List.mem_cons, List.not_mem_nil, or_false] at hcases
    rcases hcases with rfl | rfl | rfl | rfl | rfl | rfl <;>
      simp [add, Argument.ofString, extend, tokensFlags, verboseFlags, helpFlags, hflag]
  · have hnot : arg ∉ knownFlags := fun hknown => hflag (isFlag_of_known hknown)
    simp only [knownFlags, List.mem_append, not_or] at hnot
    obtain ⟨⟨htokens, hverbose⟩, hhelp⟩ := hnot
    simp [add, ofString_eq, extend, htokens, hverbose, hhelp, hflag]

/-- What the whole row of arguments adds to a request. -/
def extendAll (r : Request) (args : List String) : Request where
  options :=
    { showTokens := r.options.showTokens || args.any (· ∈ tokensFlags)
      verbose := r.options.verbose || args.any (· ∈ verboseFlags) }
  help := r.help || args.any (· ∈ helpFlags)
  script := (scriptOf? args).or r.script

theorem extendAll_cons (r : Request) (arg : String) (args : List String) :
    r.extendAll (arg :: args) = (r.extend arg).extendAll args := by
  have hscript : (scriptOf? (arg :: args)).or r.script
      = (scriptOf? args).or (r.extend arg).script := by
    rw [scriptOf?_cons, extend, Option.or_assoc]
    split <;> rfl
  rw [extendAll, extendAll, hscript]
  simp only [extend, List.any_cons, Bool.or_assoc]

theorem foldlM_add (r : Request) {args : List String}
    (h : ∀ arg ∈ args, isFlag arg → arg ∈ knownFlags) :
    args.foldlM add r = .ok (r.extendAll args) := by
  induction args generalizing r with
  | nil =>
      obtain ⟨⟨showTokens, verbose⟩, help, script⟩ := r
      simp [extendAll, scriptOf?]
      rfl
  | cons arg args ih =>
      obtain ⟨harg, hargs⟩ := List.forall_mem_cons.mp h
      rw [List.foldlM_cons, r.add_of_known harg, extendAll_cons]
      exact ih (r.extend arg) hargs

end Request

/-- Whether one of some arguments is among the given flags. -/
theorem any_mem_iff {args flags : List String} :
    args.any (· ∈ flags) = true ↔ ∃ arg ∈ args, arg ∈ flags := by
  simp only [List.any_eq_true, decide_eq_true_eq]

/-- How the flags among some arguments ask for a source to be shown. -/
def optionsOf (args : List String) : Options :=
  { showTokens := args.any (· ∈ tokensFlags), verbose := args.any (· ∈ verboseFlags) }

theorem showTokens_optionsOf {args : List String} :
    (optionsOf args).showTokens = true ↔ ∃ arg ∈ args, arg ∈ tokensFlags :=
  any_mem_iff

theorem any_mem_congr {args others flags : List String}
    (h : (∃ arg ∈ others, arg ∈ flags) ↔ ∃ arg ∈ args, arg ∈ flags) :
    others.any (· ∈ flags) = args.any (· ∈ flags) := by
  rw [Bool.eq_iff_iff, any_mem_iff, any_mem_iff]
  exact h

theorem any_mem_eq_false {args flags : List String} :
    args.any (· ∈ flags) = false ↔ ∀ arg ∈ args, arg ∉ flags := by
  simp only [List.any_eq_false, decide_eq_true_eq]

/-! ## Unknown flags -/

/-- The argument begins as flags do and is none of them. -/
def IsUnknown (arg : String) : Prop :=
  isFlag arg ∧ arg ∉ knownFlags

instance : DecidablePred IsUnknown :=
  fun arg => inferInstanceAs (Decidable (isFlag arg ∧ arg ∉ knownFlags))

theorem not_isUnknown_iff {arg : String} : ¬ IsUnknown arg ↔ (isFlag arg → arg ∈ knownFlags) := by
  rw [IsUnknown, not_and, Decidable.not_not]

theorem not_isUnknown_of_mem {arg : String} (h : arg ∈ knownFlags) : ¬ IsUnknown arg :=
  fun hunknown => hunknown.2 h

theorem find?_isUnknown_eq_none {args : List String} :
    args.find? (IsUnknown ·) = none ↔ ∀ arg ∈ args, ¬ IsUnknown arg := by
  simp only [List.find?_eq_none, decide_eq_true_eq]

/-- An unknown flag is refused. -/
theorem Request.add_of_unknown (r : Request) {arg : String} (h : IsUnknown arg) :
    r.add arg = .error arg := by
  obtain ⟨hflag, hknown⟩ := h
  simp only [knownFlags, List.mem_append, not_or] at hknown
  obtain ⟨⟨htokens, hverbose⟩, hhelp⟩ := hknown
  rw [add, ofString_eq, if_neg htokens, if_neg hverbose, if_neg hhelp, if_pos hflag]

theorem Request.foldlM_add_eq (r : Request) (args : List String) :
    args.foldlM add r
      = match args.find? (IsUnknown ·) with
        | some flag => .error flag
        | none => .ok (r.extendAll args) := by
  cases hfind : args.find? (IsUnknown ·) with
  | none =>
      have hknown := find?_isUnknown_eq_none.mp hfind
      exact r.foldlM_add fun arg hmem => not_isUnknown_iff.mp (hknown arg hmem)
  | some flag =>
      obtain ⟨hflag, front, back, rfl, hfront⟩ := List.find?_eq_some_iff_append.mp hfind
      have hknown : ∀ arg ∈ front, isFlag arg → arg ∈ knownFlags :=
        fun arg hmem => not_isUnknown_iff.mp (by simpa using hfront arg hmem)
      rw [List.foldlM_append, r.foldlM_add hknown]
      show List.foldlM add (r.extendAll front) (flag :: back) = .error flag
      rw [List.foldlM_cons, add_of_unknown _ (of_decide_eq_true hflag)]
      rfl

/-! ## The command of some arguments -/

/-- The command of some arguments, from what occurs among them. -/
theorem ofArgs_eq (args : List String) :
    Command.ofArgs args
      = match args.find? (IsUnknown ·) with
        | some flag => .unknownFlag flag
        | none => Request.command ⟨optionsOf args, args.any (· ∈ helpFlags), scriptOf? args⟩ := by
  rw [Command.ofArgs, Request.foldlM_add_eq]
  cases args.find? (IsUnknown ·) with
  | some flag => rfl
  | none => simp [Request.extendAll, Request.initial, optionsOf]

/-- Arguments that neither hold an unknown flag nor ask for help. -/
structure Plain (args : List String) : Prop where
  known : ∀ arg ∈ args, ¬ IsUnknown arg
  noHelp : ∀ arg ∈ args, arg ∉ helpFlags

/-- Plain arguments ask for a script or the prompt. -/
theorem Plain.command {args : List String} (h : Plain args) :
    Command.ofArgs args
      = match scriptOf? args with
        | some filename => .script (optionsOf args) filename
        | none => .prompt (optionsOf args) := by
  rw [ofArgs_eq, find?_isUnknown_eq_none.mpr h.known, any_mem_eq_false.mpr h.noHelp]
  rfl

/-- Known flags, none of which asks for help, and at least one argument that is
    no flag. -/
structure SelectsScript (args : List String) : Prop where
  known : ∀ arg ∈ args, isFlag arg → arg ∈ knownFlags
  noHelp : ∀ arg ∈ args, arg ∉ helpFlags
  named : ∃ arg ∈ args, ¬ isFlag arg

/-- Such arguments ask for the script that they name last. -/
theorem SelectsScript.command {args : List String} (h : SelectsScript args) :
    ∃ filename, scriptOf? args = some filename
      ∧ Command.ofArgs args = .script (optionsOf args) filename := by
  obtain ⟨filename, hscript⟩ := exists_scriptOf? h.named
  have hplain : Plain args :=
    ⟨fun arg hmem => not_isUnknown_iff.mpr (h.known arg hmem), h.noHelp⟩
  refine ⟨filename, hscript, ?_⟩
  rw [hplain.command, hscript]

end Cli

end BraceLang
