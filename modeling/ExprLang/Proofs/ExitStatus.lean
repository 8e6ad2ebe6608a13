import ExprLang.Command.Run
import ExprLang.Proofs.FaultPlaces
import ExprLang.Proofs.SyntaxErrors

/-!
# The exit status of the command

A run of the command that is not held at the prompt fails if one of its programs fails, and so it
does if it cannot begin. It complains about all of that, and about results that cannot be written as
well. Such a result does not make it fail. Of the runs that come to an ending, these are the only
ones in which the exit status and the error stream tell different things
(`Command.exit_eq_zero_iff_not_reported`).
-/

namespace ExprLang

/-! ## Log lines and complaints

Complaints are coloured and log lines are not, so that both can be told apart in the error stream.
-/

/-- A text without the character that colours begin with. -/
def Console.Uncoloured (s : String) : Prop := '\x1b' ∉ s.toList

instance : DecidablePred Console.Uncoloured :=
  fun s => inferInstanceAs (Decidable ('\x1b' ∉ s.toList))

namespace Console.Uncoloured

theorem append {s t : String} (hs : Uncoloured s) (ht : Uncoloured t) : Uncoloured (s ++ t) := by
  simp only [Uncoloured, String.toList_append, List.mem_append, not_or]
  exact ⟨hs, ht⟩

theorem join {texts : List String} (h : ∀ s ∈ texts, Uncoloured s) :
    Uncoloured (String.join texts) := by
  simp only [Uncoloured, String.toList_join, List.mem_flatMap, not_exists, not_and]
  exact h

/-- No digit of a hexadecimal number begins a colour. -/
theorem escape_notMem_toDigits (n : Nat) : '\x1b' ∉ Nat.toDigits 16 n := by
  have hdigit : ∀ k < 16, '\x1b' ≠ Nat.digitChar k := by decide
  induction n using Nat.strongRecOn with
  | ind n ih =>
    by_cases hn : n < 16
    · rw [Nat.toDigits_of_lt_base hn, List.mem_singleton]
      exact hdigit n hn
    · rw [Nat.toDigits_of_base_le (by decide) (by omega), List.mem_append, List.mem_singleton]
      rintro (h | h)
      · exact ih (n / 16) (by omega) h
      · exact hdigit (n % 16) (by omega) h

theorem escape_notMem_hexPadded (width n : Nat) : '\x1b' ∉ Text.hexPadded width n := by
  simp only [Text.hexPadded, List.mem_append, List.mem_replicate, not_or, not_and]
  exact ⟨fun _ => by decide, escape_notMem_toDigits n⟩

theorem escape_notMem_quotedChar (c : Char) : '\x1b' ∉ Text.quotedChar c := by
  have hhex (letter : Char) (hletter : '\x1b' ≠ letter) (width : Nat) :
      '\x1b' ∉ '\\' :: letter :: Text.hexPadded width c.toNat := by
    simp only [List.mem_cons, not_or]
    exact ⟨by decide, hletter, escape_notMem_hexPadded width c.toNat⟩
  have hbranch {p : Prop} [Decidable p] {cs others : List Char} (hcs : p → '\x1b' ∉ cs)
      (hothers : '\x1b' ∉ others) : '\x1b' ∉ if p then cs else others := by
    by_cases hp : p
    · rw [if_pos hp]
      exact hcs hp
    · rw [if_neg hp]
      exact hothers
  have hprintable : Text.isPrintable '\x1b' = false := by decide +kernel
  unfold Text.quotedChar
  apply hbranch (fun _ => by decide)
  apply hbranch (fun _ => by decide)
  apply hbranch
  · intro hc hmem
    rw [← List.mem_singleton.mp hmem, hprintable] at hc
    cases hc
  iterate 7 apply hbranch (fun _ => by decide)
  apply hbranch (fun _ => hhex 'x' (by decide) 2)
  apply hbranch (fun _ => hhex 'u' (by decide) 4)
  exact hhex 'U' (by decide) 8

theorem quoted (s : String) : Uncoloured (Text.quoted s) := by
  simp only [Uncoloured, Text.quoted, String.toList_ofList, List.mem_cons, List.mem_append,
    List.mem_flatMap, not_or, not_exists, not_and]
  refine ⟨⟨by decide, ?_⟩, by decide⟩
  intro c _
  exact escape_notMem_quotedChar c

theorem pair {key : String} (hkey : Uncoloured key) (value : String) :
    Uncoloured (LogRecord.pair key value) := by
  refine (hkey.append (by decide)).append ?_
  split
  · exact quoted value
  · next hplain =>
    intro hmem
    refine hplain (List.any_eq_true.mpr ⟨_, hmem, ?_⟩)
    decide

theorem line {clock : String} (hclock : Uncoloured clock) (record : LogRecord) :
    Uncoloured (record.line clock) := by
  refine ((hclock.append (by decide)).append ?_).append (by decide)
  cases record with
  | token text => exact append (by decide) (pair (by decide) text)
  | tree pos text =>
    refine append (append (append (by decide) ?_) (by decide)) ?_
    · exact pair (by decide) pos.toText
    · exact pair (by decide) text
  | scopeDump scope | frameDump scope => exact append (by decide) (pair (by decide) scope)

end Console.Uncoloured

/-! ## The reasons of failing programs -/

namespace Engine

variable {engine : Engine} {fuel scope : Nat} {m m' : Machine} {f : Fault}

theorem exitCode_of_evaluate {program : Program}
    (h : engine.evaluate fuel program scope m = .failed f m') : f.reason.exitCode ≠ 0 := by
  obtain ⟨_ | root⟩ := program
  · cases h
  · simp only [evaluate] at h
    split at h
    · cases h
    · next f' m'' hvisit =>
      cases h
      rcases (EvalM.FaultsWithin.visit engine fuel scope .root m f m'' hvisit).reason with hf | hf
        <;> simp [hf, Reason.exitCode]
    · cases h

/-- A program that fails is malformed or fails when it is run, so that it has a status of its
    own. -/
theorem exitCode_of_eval {source : String} (h : engine.eval fuel source scope m = .failed f m') :
    f.reason.exitCode ≠ 0 := by
  have h' : EvalM.andThen (engine.compile source) (engine.evaluate fuel · scope) m = .failed f m' :=
    h
  unfold EvalM.andThen at h'
  split at h'
  · exact exitCode_of_evaluate h'
  · next hcompile =>
    cases h'
    obtain ⟨hsource, -⟩ := compile_eq_failed_iff.mp hcompile
    obtain ⟨hreason, -⟩ := Program.place_of_ofSource hsource
    simp [hreason, Reason.exitCode]
  · cases h'

end Engine

namespace Command

/-- There is a complaint in what has been written to the error stream. -/
def Reported (err : String) : Prop :=
  ∃ (before : String) (reason : Reason) (parts : List String) (rest : String),
    err = before ++ Console.complaint reason.heading parts ++ rest

/-- What has been written to the error stream tells whether something has happened. -/
structure Tells (err : String) (happened : Prop) : Prop where
  reported : happened → Reported err
  silent : ¬ happened → Console.Uncoloured err

theorem reported_complaint (err : String) (reason : Reason) (parts : List String) :
    Reported (err ++ Console.complaint reason.heading parts) :=
  ⟨err, reason, parts, "", String.append_empty.symm⟩

theorem Reported.append {err : String} (h : Reported err) (more : String) :
    Reported (err ++ more) := by
  obtain ⟨before, reason, parts, rest, rfl⟩ := h
  exact ⟨before, reason, parts, rest ++ more, String.append_assoc⟩

theorem Reported.not_uncoloured {err : String} (h : Reported err) : ¬ Console.Uncoloured err := by
  obtain ⟨before, reason, parts, rest, rfl⟩ := h
  intro hplain
  refine hplain ?_
  simp [Console.complaint, Console.boldRed]

namespace Tells

variable {err : String} {p q : Prop}

theorem reported_iff (h : Tells err p) : Reported err ↔ p := by
  refine ⟨fun hreported => ?_, h.reported⟩
  by_contra hp
  exact hreported.not_uncoloured (h.silent hp)

theorem congr (h : Tells err p) (hpq : p ↔ q) : Tells err q :=
  ⟨fun hq => h.reported (hpq.mpr hq), fun hq => h.silent fun hp => hq (hpq.mp hp)⟩

theorem empty : Tells "" False := ⟨False.elim, fun _ => by decide⟩

theorem append (h : Tells err p) {more : String} (hmore : Console.Uncoloured more) :
    Tells (err ++ more) p :=
  ⟨fun hp => (h.reported hp).append more, fun hp => (h.silent hp).append hmore⟩

theorem complaint (hp : p) (reason : Reason) (parts : List String) :
    Tells (err ++ Console.complaint reason.heading parts) p :=
  ⟨fun _ => reported_complaint err reason parts, fun h => absurd hp h⟩

end Tells

/-! ## What programs come to -/

/-- What running a program comes to: its value, unless it fails, and the store and the literal nodes
    that it leaves. -/
structure Result where
  value? : Option Value
  store : Store
  nodes : Array Literal

/-- The machine that the next program begins with. -/
def Result.machine (r : Result) : Machine := { store := r.store, nodes := r.nodes }

/-- The value of a program cannot be written. -/
def Result.Unwritten (mode : OutputMode) (r : Result) : Prop :=
  ∃ v cause, r.value? = some v ∧ mode.format r.store v = .error cause

/-- A program fails, or its value is to be printed and cannot be written. -/
def Result.Deplored (mode : OutputMode) (shown : Bool) (r : Result) : Prop :=
  r.value? = none ∨ shown = true ∧ r.Unwritten mode

theorem exists_deplored_iff {mode : OutputMode} {shown : Bool} {results : List Result} :
    (∃ r ∈ results, r.Deplored mode shown) ↔
      (¬ ∀ r ∈ results, r.value? ≠ none) ∨ shown = true ∧ ∃ r ∈ results, r.Unwritten mode := by
  simp only [Result.Deplored, and_or_left, exists_or, ne_eq, not_forall, not_not, exists_prop]
  refine or_congr_right ?_
  constructor
  · rintro ⟨r, hr, hshown, hunwritten⟩
    exact ⟨hshown, r, hr, hunwritten⟩
  · rintro ⟨hshown, r, hr, hunwritten⟩
    exact ⟨r, hr, hshown, hunwritten⟩

/-- What a program comes to in a scope: nothing if it runs for ever, or into a comparison that
    does. -/
def sourceResult (engine : Engine) (scope : Nat) (source : String) (m : Machine) : Option Result :=
  match engine.eval Engine.ampleFuel source scope m with
  | .done v m => some ⟨some v, m.store, m.nodes⟩
  | .failed f m => if f.cause = .endlessComparison then none else some ⟨none, m.store, m.nodes⟩
  | .outOfFuel => none

/-- What a program file comes to: one that cannot be read fails. -/
def fileResult (around : Surroundings) (engine : Engine) (scope : Nat) (given : String)
    (m : Machine) : Option Result :=
  match around.read (programPath around.directory around.home given) with
  | .ok document => sourceResult engine scope (Text.mended ⟨document⟩) m
  | .error _ => some ⟨none, m.store, m.nodes⟩

/-- What program files come to, each of them in the store that those before it leave. -/
def fileResults (around : Surroundings) (engine : Engine) (scope : Nat) :
    List String → Machine → Option (List Result)
  | [], _ => some []
  | given :: rest, m => do
    let r ← fileResult around engine scope given m
    let others ← fileResults around engine scope rest r.machine
    return r :: others

/-- What the programs that options ask for come to, if all of them end. -/
def Options.results (o : Options) (around : Surroundings) (start : Start) :
    Option (List Result) :=
  let engine := o.engine start.config
  let m := start.transcript.machine
  match o.eval, o.files with
  | some source, _ => (sourceResult engine start.scope source m).map ([·])
  | none, [] => (sourceResult engine start.scope (Text.mended ⟨around.input⟩) m).map ([·])
  | none, files => fileResults around engine start.scope files m

/-- Whether options ask for results to be printed: that of an expression always is. -/
def Options.shows (o : Options) : Bool := o.eval.isSome || o.print

/-! ## One program -/

/-- A program has been run after a transcript, and this is what it has come to. -/
structure Ran (t : Transcript) (r : Result) (answer : Except Fault Value × Transcript) : Prop where
  value : answer.1.toOption = r.value?
  machine : answer.2.machine = r.machine
  log : ∃ log, Console.Uncoloured log ∧ answer.2.err = t.err ++ log

section

variable {around : Surroundings} (hclock : Console.Uncoloured around.clock)
include hclock

theorem ran_exec (engine : Engine) (scope : Nat) (source : String) (t : Transcript) :
    Option.Rel (Ran t) (sourceResult engine scope source t.machine)
      (t.exec around.clock engine scope source) := by
  have hlog (m : Machine) : Console.Uncoloured
      (String.join (m.log.toList.map (LogRecord.line around.clock))) := by
    apply Console.Uncoloured.join
    intro line hline
    obtain ⟨record, -, rfl⟩ := List.mem_map.mp hline
    exact Console.Uncoloured.line hclock record
  unfold sourceResult Transcript.exec
  cases engine.eval Engine.ampleFuel source scope t.machine with
  | done v m => exact .some ⟨rfl, rfl, _, hlog m, rfl⟩
  | failed f m =>
    by_cases hf : f.cause = .endlessComparison
    · simp only [if_pos hf]
      exact .none
    · simp only [if_neg hf]
      exact .some ⟨rfl, rfl, _, hlog m, rfl⟩
  | outOfFuel => exact .none

theorem ran_runFile (engine : Engine) (scope : Nat) (given : String) (t : Transcript) :
    Option.Rel (Ran t) (fileResult around engine scope given t.machine)
      (runFile around engine scope (programPath around.directory around.home given) t) := by
  have hunread (f : Fault) : Option.Rel (Ran t) (some ⟨none, t.store, t.nodes⟩)
      (some (.error f, t)) :=
    .some ⟨rfl, rfl, "", by decide, String.append_empty.symm⟩
  unfold fileResult runFile
  cases around.read (programPath around.directory around.home given) with
  | ok document => exact ran_exec hclock engine scope (Text.mended ⟨document⟩) t
  | error e => cases e <;> exact hunread _

end

theorem Transcript.machine_complain (t : Transcript) (text : String) :
    (t.complain text).machine = t.machine := rfl

namespace Ran

variable {t t' : Transcript} {r : Result} {p : Prop}

theorem store {answer : Except Fault Value × Transcript} (h : Ran t r answer) :
    answer.2.store = r.store :=
  congrArg Machine.store h.machine

/-- A program that fails is complained about. -/
theorem tells_failed {f : Fault} (h : Ran t r (.error f, t')) (mode : OutputMode) (shown : Bool)
    (file : Option String) :
    Tells (t'.complain (f.complaint file)).err (p ∨ r.Deplored mode shown) :=
  .complaint (.inr (.inl h.value.symm)) f.reason _

/-- The value of a program is complained about if it is to be printed and cannot be written. -/
theorem tells_printed {v : Value} (h : Ran t r (.ok v, t')) (ht : Tells t.err p) (mode : OutputMode)
    (shown : Bool) :
    Tells (if shown then printResult mode v t' else t').err (p ∨ r.Deplored mode shown) := by
  have hvalue : r.value? = some v := h.value.symm
  have hstore : t'.store = r.store := h.store
  obtain ⟨log, hlog, herr⟩ := h.log
  have ht' : Tells t'.err p := by
    rw [show t'.err = t.err ++ log from herr]
    exact ht.append hlog
  have hnone (hwritten : ¬ (shown = true ∧ r.Unwritten mode)) :
      p ↔ p ∨ r.Deplored mode shown := by
    refine ⟨.inl, Or.rec id ?_⟩
    rintro (hfailed | hunwritten)
    · cases hvalue.symm.trans hfailed
    · exact absurd hunwritten hwritten
  cases shown with
  | false => exact ht'.congr (hnone fun h => Bool.false_ne_true h.1)
  | true =>
    rw [if_pos rfl, printResult, hstore]
    cases hformat : mode.format r.store v with
    | error cause =>
      exact .complaint (.inr (.inr ⟨rfl, v, cause, hvalue, hformat⟩)) .runtime _
    | ok text =>
      refine ht'.congr (hnone ?_)
      rintro ⟨-, w, cause, hw, hcause⟩
      cases hvalue.symm.trans hw
      cases hformat.symm.trans hcause

theorem machine_printed {v : Value} (h : Ran t r (.ok v, t')) (mode : OutputMode) (shown : Bool) :
    (if shown then printResult mode v t' else t').machine = r.machine := by
  rw [← h.machine]
  cases shown with
  | false => rfl
  | true =>
    rw [if_pos rfl, printResult]
    split <;> rfl

end Ran

theorem exitCode_of_exec {t t' : Transcript} {clock : String} {engine : Engine} {scope : Nat}
    {source : String} {f : Fault} (h : t.exec clock engine scope source = some (.error f, t')) :
    f.reason.exitCode ≠ 0 := by
  unfold Transcript.exec at h
  split at h
  · cases h
  · next heval =>
    split at h
    · cases h
    · cases h
      exact Engine.exitCode_of_eval heval
  · cases h

/-! ## All programs -/

section

variable {around : Surroundings} (hclock : Console.Uncoloured around.clock)
include hclock

/-- Program files, by induction: each one adds to what those before it have left to tell. -/
theorem tells_runFiles (engine : Engine) (scope : Nat) (mode : OutputMode) (shown : Bool)
    (files : List String) {t : Transcript} {p : Prop} (ht : Tells t.err p) :
    Option.Rel
      (fun results answer =>
        Tells answer.2.err (p ∨ ∃ r ∈ results, r.Deplored mode shown) ∧
          (answer.1 = false ↔ ∀ r ∈ results, r.value? ≠ none))
      (fileResults around engine scope files t.machine)
      (runFiles around engine scope mode shown files t) := by
  induction files generalizing t p with
  | nil => exact .some (by simpa using ht)
  | cons given rest ih =>
    have hran := ran_runFile hclock engine scope given t
    rw [runFiles, fileResults]
    generalize fileResult around engine scope given t.machine = result? at hran ⊢
    generalize runFile around engine scope (programPath around.directory around.home given) t =
      answer? at hran ⊢
    cases hran with
    | none => exact .none
    | @some r answer hran =>
      obtain ⟨_ | v, t'⟩ := answer
      · next f =>
        have hnone : r.value? = none := hran.value.symm
        have hmachine : t'.machine = r.machine := hran.machine
        have hrest := ih (hran.tells_failed (p := p) mode shown
          (some (programPath around.directory around.home given)))
        rw [Transcript.machine_complain, hmachine] at hrest
        simp only [Option.bind_eq_bind, Option.bind_some, Option.pure_def]
        generalize fileResults around engine scope rest r.machine = others? at hrest ⊢
        generalize runFiles around engine scope mode shown rest _ = rest? at hrest ⊢
        cases hrest with
        | none => exact .none
        | some hrest =>
          refine .some ⟨hrest.1.congr ?_, ?_⟩
          · simp [or_assoc]
          · simp [hnone]
      · have hsome : r.value? = some v := hran.value.symm
        have hrest := ih (hran.tells_printed ht mode shown)
        rw [hran.machine_printed mode shown] at hrest
        simp only [Option.bind_eq_bind, Option.bind_some, Option.pure_def]
        generalize fileResults around engine scope rest r.machine = others? at hrest ⊢
        generalize runFiles around engine scope mode shown rest _ = rest? at hrest ⊢
        cases hrest with
        | none => exact .none
        | some hrest =>
          refine .some ⟨hrest.1.congr ?_, ?_⟩
          · simp [or_assoc]
          · simpa [hsome] using hrest.2

/-- A single program. -/
theorem tells_runSource (engine : Engine) (scope : Nat) (mode : OutputMode) (shown : Bool)
    (source : String) {t : Transcript} (ht : Tells t.err False) :
    Option.Rel
      (fun r (ending : Ending) =>
        Tells ending.err (r.Deplored mode shown) ∧ (ending.exit = 0 ↔ r.value? ≠ none))
      (sourceResult engine scope source t.machine)
      (runSource around engine scope mode shown source t) := by
  have hran := ran_exec hclock engine scope source t
  unfold runSource
  generalize sourceResult engine scope source t.machine = result? at hran ⊢
  cases hexec : t.exec around.clock engine scope source with
  | none =>
    rw [hexec] at hran
    cases hran
    exact .none
  | some answer =>
    rw [hexec] at hran
    cases hran with
    | @some r _ hran =>
      obtain ⟨_ | v, t'⟩ := answer
      · next f =>
        have hnone : r.value? = none := hran.value.symm
        refine .some ⟨(hran.tells_failed mode shown none).congr (iff_of_eq (false_or _)), ?_⟩
        simpa [Transcript.finish, hnone] using exitCode_of_exec hexec
      · have hsome : r.value? = some v := hran.value.symm
        refine .some ⟨(hran.tells_printed ht mode shown).congr (iff_of_eq (false_or _)), ?_⟩
        simp [Transcript.finish, hsome]

omit hclock in
theorem err_of_start {o : Options} {start : Start} (h : o.start around = .ok start) :
    start.transcript.err = "" := by
  unfold Options.start at h
  split at h
  · cases h
  · split at h
    · cases h
    · split at h
      · cases h
      · cases h
        rfl

/-- What options ask for, without the prompt and once the settings and symbols are there. -/
theorem tells_run {o : Options} {start : Start} (hprompt : o.atPrompt around.terminal = false)
    (hstart : o.start around = .ok start) :
    Option.Rel
      (fun results (ending : Ending) =>
        Tells ending.err (∃ r ∈ results, r.Deplored (o.outputMode start.config .text) o.shows) ∧
          (ending.exit = 0 ↔ ∀ r ∈ results, r.value? ≠ none))
      (o.results around start) (o.run around) := by
  have hsilent : Tells start.transcript.err False := by
    rw [err_of_start hstart]
    exact .empty
  have hsingle (shown : Bool) (source : String) :
      Option.Rel
        (fun results (ending : Ending) =>
          Tells ending.err (∃ r ∈ results, r.Deplored (o.outputMode start.config .text) shown) ∧
            (ending.exit = 0 ↔ ∀ r ∈ results, r.value? ≠ none))
        ((sourceResult (o.engine start.config) start.scope source start.transcript.machine).map
          ([·]))
        (runSource around (o.engine start.config) start.scope
          (o.outputMode start.config .text) shown source start.transcript) := by
    have htells := tells_runSource hclock (o.engine start.config) start.scope
      (o.outputMode start.config .text) shown source hsilent
    generalize sourceResult _ _ source start.transcript.machine = result? at htells ⊢
    generalize runSource around _ _ _ shown source start.transcript = ending? at htells ⊢
    cases htells with
    | none => exact .none
    | some h => exact .some (by simpa using h)
  simp only [Options.run, hstart, hprompt, Bool.false_eq_true, if_false, Options.results,
    Options.shows]
  cases o.eval with
  | some source => exact hsingle true source
  | none =>
    cases o.files with
    | nil => exact hsingle o.print (Text.mended ⟨around.input⟩)
    | cons given rest =>
      have htells := tells_runFiles hclock (o.engine start.config) start.scope
        (o.outputMode start.config .text) o.print (given :: rest) hsilent
      dsimp only
      generalize fileResults around _ _ (given :: rest) _ = results? at htells ⊢
      generalize runFiles around _ _ _ o.print (given :: rest) _ = answer? at htells ⊢
      cases htells with
      | none => exact .none
      | some h =>
        refine .some ⟨h.1.congr (iff_of_eq (false_or _)), ?_⟩
        rw [← h.2]
        simp [Transcript.finish]

end

/-- A run that cannot begin says so and fails. -/
theorem reported_refuse {reason : Reason} (hreason : reason ≠ .foreign) (text : String) :
    Reported (refuse reason text).err ∧ (refuse reason text).exit ≠ 0 := by
  refine ⟨⟨"", reason, [text], "", ?_⟩, ?_⟩
  · rw [String.empty_append, String.append_empty]
    rfl
  · cases reason with
    | foreign => exact absurd rfl hreason
    | _ => exact Nat.succ_ne_zero _

theorem reported_of_start {o : Options} {around : Surroundings} {ending : Ending}
    (h : o.start around = .error ending) : Reported ending.err ∧ ending.exit ≠ 0 := by
  unfold Options.start at h
  split at h
  · cases h
    exact reported_refuse (by decide) _
  · split at h
    · cases h
      exact reported_refuse (by decide) _
    · split at h
      · cases h
        exact reported_refuse (by decide) _
      · cases h

/-! ## The command -/

/-- Whether the command is asked for something other than a session at the prompt, in a way that it
    understands. -/
def unattended (around : Surroundings) (args : List String) : Bool :=
  match request args with
  | .run o => !o.atPrompt around.terminal
  | .inform _ | .refused _ => true
  | .misused _ => false

/-- The programs that the command is asked for do not all end. -/
def Endless (around : Surroundings) (args : List String) : Prop :=
  ∃ o start, request args = .run o ∧ o.start around = .ok start ∧ o.results around start = none

/-- The programs that the command is asked for all come to a value, and one of the values is to be
    printed and cannot be written. -/
def OnlyUnwritten (around : Surroundings) (args : List String) : Prop :=
  ∃ o start results, request args = .run o ∧ o.start around = .ok start ∧
    o.results around start = some results ∧ o.shows = true ∧ (∀ r ∈ results, r.value? ≠ none) ∧
    ∃ r ∈ results, r.Unwritten (o.outputMode start.config .text)

/-- A run that does not get as far as its programs has no endless ones among them, and no results
    that cannot be written. -/
theorem not_started {around : Surroundings} {args : List String}
    (h : ∀ o start, request args = .run o → o.start around ≠ .ok start) :
    ¬ Endless around args ∧ ¬ OnlyUnwritten around args := by
  constructor
  · rintro ⟨o, start, hrequest, hstart, -⟩
    exact h o start hrequest hstart
  · rintro ⟨o, start, -, hrequest, hstart, -⟩
    exact h o start hrequest hstart

theorem endless_iff {around : Surroundings} {args : List String} {o : Options} {start : Start}
    (hrequest : request args = .run o) (hstart : o.start around = .ok start) :
    Endless around args ↔ o.results around start = none := by
  constructor
  · rintro ⟨o', start', hrequest', hstart', h⟩
    cases hrequest.symm.trans hrequest'
    cases hstart.symm.trans hstart'
    exact h
  · intro h
    exact ⟨o, start, hrequest, hstart, h⟩

theorem onlyUnwritten_iff {around : Surroundings} {args : List String} {o : Options} {start : Start}
    {results : List Result} (hrequest : request args = .run o)
    (hstart : o.start around = .ok start) (hresults : o.results around start = some results) :
    OnlyUnwritten around args ↔
      o.shows = true ∧ (∀ r ∈ results, r.value? ≠ none) ∧
        ∃ r ∈ results, r.Unwritten (o.outputMode start.config .text) := by
  constructor
  · rintro ⟨o', start', results', hrequest', hstart', hresults', h⟩
    cases hrequest.symm.trans hrequest'
    cases hstart.symm.trans hstart'
    cases hresults.symm.trans hresults'
    exact h
  · intro h
    exact ⟨o, start, results, hrequest, hstart, hresults, h⟩

/-- The command comes to an ending exactly if all of its programs end. It then exits with zero
    exactly if it has not complained, for an expression, for any files and for its input, whatever
    is printed and in whatever way. The only exception are runs in which nothing fails but a result
    cannot be written. -/
theorem exit_eq_zero_iff_not_reported {around : Surroundings} {args : List String}
    (hclock : Console.Uncoloured around.clock) (hargs : unattended around args = true) :
    (run around args = none ↔ Endless around args) ∧
      ∀ ending ∈ run around args,
        ((ending.exit = 0 ↔ ¬ Reported ending.err) ↔ ¬ OnlyUnwritten around args) := by
  have hunstarted {ending : Ending} (hending : ending.exit = 0 ↔ ¬ Reported ending.err)
      (h : ∀ o start, request args = .run o → o.start around ≠ .ok start) :
      (some ending = none ↔ Endless around args) ∧
        ∀ ending' ∈ some ending,
          ((ending'.exit = 0 ↔ ¬ Reported ending'.err) ↔ ¬ OnlyUnwritten around args) := by
    obtain ⟨hends, hwritten⟩ := not_started h
    refine ⟨iff_of_false (Option.some_ne_none _) hends, fun ending' hmem => ?_⟩
    cases hmem
    exact iff_of_true hending hwritten
  have hagrees {ending : Ending} (h : Reported ending.err ∧ ending.exit ≠ 0) :
      ending.exit = 0 ↔ ¬ Reported ending.err :=
    iff_of_false h.2 (not_not_intro h.1)
  unfold unattended at hargs
  unfold run
  cases hrequest : request args with
  | inform text =>
    have hsilent : ¬ Reported ({ out := text ++ "\n" } : Ending).err :=
      fun h => h.not_uncoloured (Tells.empty.silent id)
    refine hunstarted (iff_of_true rfl hsilent) ?_
    intro o start ho
    cases hrequest.symm.trans ho
  | misused misuse => simp [hrequest] at hargs
  | refused cause =>
    refine hunstarted (hagrees (reported_refuse (by decide) _)) ?_
    intro o start ho
    cases hrequest.symm.trans ho
  | run o =>
    rw [hrequest] at hargs
    have hprompt : o.atPrompt around.terminal = false := by simpa using hargs
    cases hstart : o.start around with
    | error ending =>
      have hrun : o.run around = some ending := by rw [Options.run, hstart]
      simp only [hrun]
      refine hunstarted (hagrees (reported_of_start hstart)) ?_
      intro o' start ho hstart'
      cases hrequest.symm.trans ho
      cases hstart.symm.trans hstart'
    | ok start =>
      have htells := tells_run hclock hprompt hstart
      rw [endless_iff hrequest hstart]
      have hlogic (valued shown unwritten : Prop) :
          (valued ↔ ¬ (¬ valued ∨ shown ∧ unwritten)) ↔ ¬ (shown ∧ valued ∧ unwritten) := by
        tauto
      cases hresults : o.results around start with
      | none =>
        rw [hresults] at htells
        dsimp only
        generalize o.run around = ending? at htells ⊢
        cases htells
        exact ⟨iff_of_true rfl rfl, fun _ h => absurd h (Option.not_mem_none _)⟩
      | some results =>
        rw [hresults] at htells
        dsimp only
        generalize o.run around = ending? at htells ⊢
        cases htells with
        | @some _ ending htells =>
          refine ⟨iff_of_false (Option.some_ne_none _) (Option.some_ne_none _), fun _ h => ?_⟩
          cases h
          rw [onlyUnwritten_iff hrequest hstart hresults, htells.1.reported_iff, htells.2,
            exists_deplored_iff]
          exact hlogic _ _ _

/-- A working directory without files. -/
def emptyDirectory : Surroundings where
  read _ := .error .missing
  directory := "/work"
  home := "/home"
  clock := "9:05AM"

/-- An expression that fails after its tokens have been logged. -/
theorem exit_eq_zero_iff_not_reported_division :
    Console.Uncoloured emptyDirectory.clock ∧
      unattended emptyDirectory ["--debug-lex", "-e", "LEN / 0"] = true ∧
      ∃ ending, run emptyDirectory ["--debug-lex", "-e", "LEN / 0"] = some ending ∧
        ending.exit = 2 ∧ Reported ending.err ∧
        ¬ OnlyUnwritten emptyDirectory ["--debug-lex", "-e", "LEN / 0"] := by
  have hclock : Console.Uncoloured emptyDirectory.clock := by decide
  have hargs : unattended emptyDirectory ["--debug-lex", "-e", "LEN / 0"] = true := by
    decide +kernel
  have hexit : (run emptyDirectory ["--debug-lex", "-e", "LEN / 0"]).map Ending.exit = some 2 := by
    decide +kernel
  have herr : (run emptyDirectory ["--debug-lex", "-e", "LEN / 0"]).map Ending.err =
      some ("9:05AM DBG lex token=\"identifier 'LEN' [1:1]\"\n" ++
        "9:05AM DBG lex token=\"/ [1:5]\"\n" ++
        "9:05AM DBG lex token=\"integer literal '0' [1:7]\"\n" ++
        Console.complaint Reason.runtime.heading
          ["[line 1, col 5] Unsupported operand type(s) for \x60/\x60: (FUNCTION,INTEGER)"]) := by
    decide +kernel
  obtain ⟨ending, hrun, hexit⟩ := Option.map_eq_some_iff.mp hexit
  rw [hrun, Option.map_some, Option.some.injEq] at herr
  have hreported : Reported ending.err := by
    rw [herr]
    exact reported_complaint _ _ _
  refine ⟨hclock, hargs, ending, hrun, hexit, hreported, ?_⟩
  refine ((exit_eq_zero_iff_not_reported hclock hargs).2 ending hrun).mp ?_
  rw [hexit]
  exact iff_of_false (by decide) (not_not_intro hreported)

/-- The value of an expression is a function, which has no JSON text: the command complains and does
    not fail. -/
theorem run_unwrittenFunction :
    ∃ ending, run emptyDirectory ["-e", "LEN", "-o", "json"] = some ending ∧ ending.exit = 0 ∧
      Reported ending.err := by
  have hexit : (run emptyDirectory ["-e", "LEN", "-o", "json"]).map Ending.exit = some 0 := by
    decide +kernel
  have herr : (run emptyDirectory ["-e", "LEN", "-o", "json"]).map Ending.err =
      some ("" ++ Console.complaint Reason.runtime.heading
        ["Cannot encode value of type (FUNCTION)"]) := by
    decide +kernel
  obtain ⟨ending, hrun, hexit⟩ := Option.map_eq_some_iff.mp hexit
  rw [hrun, Option.map_some, Option.some.injEq] at herr
  refine ⟨ending, hrun, hexit, ?_⟩
  rw [herr]
  exact reported_complaint _ _ _

end Command

end ExprLang
