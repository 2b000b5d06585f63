import BraceLang.Cli
import BraceLang.Terminal
import BraceLang.Proofs.Cli.Arguments

/-! # Precedence — which of the arguments decide a run

    The first unknown flag decides before everything else, then a request for
    help; both do so whatever there is to read.  Any other run is decided by the
    last script among the arguments, and by the kinds of flags that occur.  So a
    known flag may stand anywhere, and come any number of times
    (`settled_of_args`). -/

namespace BraceLang

namespace Cli

/-- Two worlds in which a script reads the same, or, without a script, the
    prompt does. -/
structure World.AlikeFor (script : Option String) (world other : World) : Prop where
  paint : other.paint = world.paint
  overflow : other.overflow = world.overflow
  file : ∀ filename, script = some filename → other.readFile filename = world.readFile filename
  input : script = none → other.input = world.input

/-- The same kinds of flags occur, and the same script is named last. -/
structure ChooseAlike (args others : List String) : Prop where
  tokens : (∃ arg ∈ others, arg ∈ tokensFlags) ↔ ∃ arg ∈ args, arg ∈ tokensFlags
  verbose : (∃ arg ∈ others, arg ∈ verboseFlags) ↔ ∃ arg ∈ args, arg ∈ verboseFlags
  script : scriptOf? others = scriptOf? args

/-- The same arguments, but for the places and the number of the known flags. -/
structure Rearranged (args others : List String) : Prop where
  /-- All that is no known flag stands in its order. -/
  kept : others.filter (· ∉ knownFlags) = args.filter (· ∉ knownFlags)
  flags : ∀ flag ∈ knownFlags, flag ∈ others ↔ flag ∈ args

/-- How some arguments settle what a run of them does. -/
structure Settled (args : List String) : Prop where
  /-- The first unknown flag is refused, whatever stands around it. -/
  refused : (∃ arg ∈ args, IsUnknown arg) →
    ∃ front flag back, args = front ++ flag :: back ∧ (∀ arg ∈ front, ¬ IsUnknown arg)
      ∧ IsUnknown flag
      ∧ ∀ world, run world args = ⟨1, ⟨"", "Unknown flag: " ++ flag ++ "\n"
        ++ "Usage: nova [OPTIONS] [script]\n" ++ "       nova --help\n"⟩⟩
  /-- Help is all that is shown, whatever else is asked for. -/
  helped : (∀ arg ∈ args, ¬ IsUnknown arg) → (∃ arg ∈ args, arg ∈ helpFlags) →
    ∀ world, run world args = ⟨0, ⟨"NovaSyntax v0.1.0 - lexer and parser\n"
      ++ "\n"
      ++ "USAGE:\n"
      ++ "    nova [OPTIONS] [script]\n"
      ++ "\n"
      ++ "OPTIONS:\n"
      ++ "    -t, --tokens    Show tokenization output (lexer only)\n"
      ++ "    -v, --verbose   Report constructs the parser skipped\n"
      ++ "    -h, --help      Show this help message\n"
      ++ "\n"
      ++ "EXAMPLES:\n"
      ++ "    nova script.nova           Parse a script and list its declarations\n"
      ++ "    nova --tokens script.nova  Show tokens from lexer\n"
      ++ "    nova                       Start interactive REPL\n", ""⟩⟩
  /-- Of the world, only the file of the last script is read, or the input. -/
  chosen : Plain args → ∀ others, Plain others → ChooseAlike args others →
    ∀ world other, world.AlikeFor (scriptOf? args) other → run other others = run world args
  rearranged : ∀ others, Rearranged args others → ∀ world, run world others = run world args

/-! ## What a run reads -/

theorem run_of_alikeFor {args : List String} (h : Plain args) {world other : World}
    (halike : world.AlikeFor (scriptOf? args) other) : run other args = run world args := by
  rw [run, run, h.command]
  cases hscript : scriptOf? args with
  | some filename =>
      rw [hscript] at halike
      show runScript other (optionsOf args) filename = runScript world (optionsOf args) filename
      rw [runScript, runScript, halike.file filename rfl, halike.paint]
  | none =>
      rw [hscript] at halike
      show Session.transcript (optionsOf args) other.paint other.overflow other.input
        = Session.transcript (optionsOf args) world.paint world.overflow world.input
      rw [halike.paint, halike.overflow, halike.input rfl]

theorem ChooseAlike.optionsOf_eq {args others : List String} (h : ChooseAlike args others) :
    optionsOf others = optionsOf args := by
  rw [Cli.optionsOf, Cli.optionsOf, any_mem_congr h.tokens, any_mem_congr h.verbose]

/-! ## Known flags in other places -/

variable {args others : List String}

/-- The unknown flags are among what is kept. -/
theorem Rearranged.find?_eq (h : Rearranged args others) :
    others.find? (IsUnknown ·) = args.find? (IsUnknown ·) := by
  have hkept : ∀ row : List String,
      (row.filter (· ∉ knownFlags)).find? (IsUnknown ·) = row.find? (IsUnknown ·) := by
    intro row
    rw [List.find?_filter]
    congr 1
    funext arg
    by_cases hknown : arg ∈ knownFlags
    · simp [IsUnknown, hknown]
    · simp [IsUnknown, hknown]
  rw [← hkept, h.kept, hkept]

/-- The scripts are among what is kept. -/
theorem Rearranged.scriptOf?_eq (h : Rearranged args others) :
    scriptOf? others = scriptOf? args := by
  have hkept : ∀ row : List String, scriptOf? (row.filter (· ∉ knownFlags)) = scriptOf? row := by
    intro row
    rw [scriptOf?, scriptOf?, List.filter_filter]
    congr 2
    funext arg
    by_cases hknown : arg ∈ knownFlags
    · simp [isFlag_of_known hknown]
    · simp [hknown]
  rw [← hkept, h.kept, hkept]

theorem Rearranged.any_eq (h : Rearranged args others) {flags : List String}
    (hflags : flags ⊆ knownFlags) : others.any (· ∈ flags) = args.any (· ∈ flags) := by
  apply any_mem_congr
  constructor
  · rintro ⟨flag, hmem, hflag⟩
    exact ⟨flag, (h.flags flag (hflags hflag)).mp hmem, hflag⟩
  · rintro ⟨flag, hmem, hflag⟩
    exact ⟨flag, (h.flags flag (hflags hflag)).mpr hmem, hflag⟩

theorem Rearranged.ofArgs_eq (h : Rearranged args others) :
    Command.ofArgs others = Command.ofArgs args := by
  have htokens := h.any_eq (by decide : tokensFlags ⊆ knownFlags)
  have hverbose := h.any_eq (by decide : verboseFlags ⊆ knownFlags)
  have hhelp := h.any_eq (by decide : helpFlags ⊆ knownFlags)
  rw [Cli.ofArgs_eq, Cli.ofArgs_eq, h.find?_eq, h.scriptOf?_eq, hhelp, optionsOf, optionsOf,
    htokens, hverbose]

/-- **Precedence.**  An unknown flag decides before help, and help before the
    rest; the rest of the arguments decide by the kinds of flags that occur and
    the script named last, in whatever order they come. -/
theorem settled_of_args (args : List String) : Settled args := by
  refine { refused := ?refused, helped := ?helped, chosen := ?chosen, rearranged := ?rearranged }
  case refused =>
    rintro ⟨arg, hmem, harg⟩
    cases hfind : args.find? (IsUnknown ·) with
    | none => exact absurd harg (find?_isUnknown_eq_none.mp hfind arg hmem)
    | some flag =>
        have hcommand := ofArgs_eq args
        rw [hfind] at hcommand
        obtain ⟨hflag, front, back, hargs, hfront⟩ := List.find?_eq_some_iff_append.mp hfind
        refine ⟨front, flag, back, hargs, ?_, of_decide_eq_true hflag, ?_⟩
        · intro arg hmem
          simpa using hfront arg hmem
        · intro world
          rw [run, hcommand]
          simp [Command.run, unknownFlagText, unlines, Output.err, String.append_assoc]
  case helped =>
    intro hknown hhelp world
    rw [run, ofArgs_eq, find?_isUnknown_eq_none.mpr hknown, any_mem_iff.mpr hhelp]
    show Outcome.mk 0 ⟨helpText, ""⟩ = _
    decide +kernel
  case chosen =>
    intro hargs others hothers halike world other hworlds
    have hcommand : Command.ofArgs others = Command.ofArgs args := by
      rw [hargs.command, hothers.command, halike.script, halike.optionsOf_eq]
    rw [← run_of_alikeFor hargs hworlds, run, run, hcommand]
  case rearranged =>
    intro others h world
    rw [run, run, h.ofArgs_eq]

/-- An unknown flag behind a request for help, a request for help between two
    scripts, the same flags in other places, and another spelling of a flag beside
    the same last script. -/
theorem settled_of_args_mixed :
    let world : World := ⟨fun _ => .error .notFound, [], .bare, .wraps⟩
    run world ["-h", "a.nova", "-tv", "--quiet", "-v"]
        = ⟨1, ⟨"", "Unknown flag: -tv\nUsage: nova [OPTIONS] [script]\n       nova --help\n"⟩⟩
      ∧ (run world ["a.nova", "--help", "-t", "b.nova"]).code = 0
      ∧ run world ["a.nova", "--help", "-t", "b.nova"] = run world ["-h"]
      ∧ run world ["-v", "a.nova", "-t", "b.nova", "-v"] = run world ["a.nova", "b.nova", "-t", "-v"]
      ∧ run world ["--tokens", "b.nova"] = run world ["a.nova", "b.nova", "-t"] := by
  intro world
  refine ⟨?refused, ?code, ?helped, ?rearranged, ?chosen⟩
  case refused =>
    obtain ⟨front, flag, back, hargs, hfront, hflag, hrun⟩ :=
      (settled_of_args ["-h", "a.nova", "-tv", "--quiet", "-v"]).refused
        ⟨"-tv", by decide, by decide⟩
    have hfind : ["-h", "a.nova", "-tv", "--quiet", "-v"].find? (IsUnknown ·) = some flag :=
      List.find?_eq_some_iff_append.mpr
        ⟨decide_eq_true hflag, front, back, hargs, by simpa using hfront⟩
    obtain rfl : "-tv" = flag := Option.some.inj ((by decide : _ = some "-tv").symm.trans hfind)
    rw [hrun world]
    decide
  case code =>
    rw [(settled_of_args ["a.nova", "--help", "-t", "b.nova"]).helped (by decide) (by decide)]
  case helped =>
    rw [(settled_of_args ["a.nova", "--help", "-t", "b.nova"]).helped (by decide) (by decide),
      (settled_of_args ["-h"]).helped (by decide) (by decide)]
  case rearranged =>
    exact (settled_of_args ["a.nova", "b.nova", "-t", "-v"]).rearranged _
      ⟨by decide, by decide⟩ world
  case chosen =>
    have hworld : world.AlikeFor (some "b.nova") world := ⟨rfl, rfl, fun _ _ => rfl, nofun⟩
    exact (settled_of_args ["a.nova", "b.nova", "-t"]).chosen ⟨by decide, by decide⟩ _
      ⟨by decide, by decide⟩ ⟨by decide, by decide, by decide⟩ world world hworld

end Cli

end BraceLang
