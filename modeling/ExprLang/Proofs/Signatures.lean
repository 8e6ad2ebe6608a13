import ExprLang.Proofs.FaultPlaces
import ExprLang.Proofs.LiteralCache

/-!
# Signatures

The signature of a closure is a text of marks: each `?` stands for one argument and a `*` for any
number more, in any order. `FUNCTION` refuses every other text. What is made of a signature obeys it
(`Engine.define_obeys`): a call with a fitting number of arguments runs the body in a new frame, and
every other call is refused before there is a frame and before the call is open.
-/

namespace ExprLang

namespace Arity

/-- The characters that signatures are made of. -/
def isMark (c : Char) : Bool := c = '?' || c = '*'

/-- A signature is read as the number of its `?`, which is the greatest number of arguments, too,
    if there is no `*`. The first other character decides why it cannot be read. -/
theorem ofSignature_eq (cs : List Char) :
    ofSignature cs =
      match cs.find? fun c => !isMark c with
      | some c => .error c
      | none => .ok ⟨cs.count '?', if '*' ∈ cs then none else some (cs.count '?')⟩ := by
  induction cs with
  | nil => rfl
  | cons c cs ih =>
    rw [ofSignature, ih, List.find?_cons, List.count_cons]
    by_cases hquestion : c = '?'
    · subst hquestion
      cases cs.find? fun c => !isMark c with
      | some bad => rfl
      | none =>
        have hmem : '*' ∈ '?' :: cs ↔ '*' ∈ cs := by simp
        by_cases hstar : '*' ∈ cs
        · simp [isMark, hmem, hstar]
        · simp [isMark, hmem, hstar]
    · by_cases hstar : c = '*'
      · subst hstar
        cases cs.find? fun c => !isMark c with
        | some bad => rfl
        | none => simp [isMark]
      · simp [isMark, hquestion, hstar]

end Arity

namespace Signature

/-- A text of marks only. -/
def WellFormed (sig : Text) : Prop := ∀ c ∈ sig.chars, c = some '?' ∨ c = some '*'

/-- A number of arguments that a signature asks for: one for each `?`, and more only if there is a
    `*`. -/
def Admits (sig : Text) (n : Nat) : Prop :=
  sig.chars.count (some '?') ≤ n ∧ (some '*' ∉ sig.chars → n = sig.chars.count (some '?'))

/-- The arity of a text of marks. -/
def arity (sig : Text) : Arity :=
  ⟨sig.chars.count (some '?'),
    if some '*' ∈ sig.chars then none else some (sig.chars.count (some '?'))⟩

/-- The replacements in a mended text are no marks, so that its marks are those of the text. -/
theorem count_mended (sig : Text) {c : Char} (hc : c ≠ Text.replacement) :
    sig.mended.toList.count c = sig.chars.count (some c) := by
  rw [Text.mended, String.toList_ofList, List.count_eq_countP, List.count_eq_countP,
    List.countP_map]
  refine List.countP_congr fun c? _ => ?_
  cases c? with
  | none => simpa using hc.symm
  | some d => simp

theorem mem_mended (sig : Text) {c : Char} (hc : c ≠ Text.replacement) :
    c ∈ sig.mended.toList ↔ some c ∈ sig.chars := by
  rw [← List.count_pos_iff, ← List.count_pos_iff, count_mended sig hc]

theorem ofSignature_of_wellFormed {sig : Text} (h : WellFormed sig) :
    Arity.ofSignature sig.mended.toList = .ok (arity sig) := by
  have hnone : (sig.mended.toList.find? fun c => !Arity.isMark c) = none := by
    rw [List.find?_eq_none, Text.mended, String.toList_ofList, List.forall_mem_map]
    intro c hc
    rcases h c hc with rfl | rfl
    · decide
    · decide
  rw [Arity.ofSignature_eq, hnone, count_mended sig (by decide)]
  simp only [mem_mended sig (show '*' ≠ Text.replacement by decide)]
  rfl

theorem ofSignature_of_not_wellFormed {sig : Text} (h : ¬ WellFormed sig) :
    ∃ c, (sig.mended.toList.find? fun c => !Arity.isMark c) = some c ∧
      Arity.ofSignature sig.mended.toList = .error c := by
  rw [Arity.ofSignature_eq]
  cases hfind : sig.mended.toList.find? fun c => !Arity.isMark c with
  | some c => exact ⟨c, rfl, rfl⟩
  | none =>
    refine absurd (fun c hc => ?_) h
    rw [List.find?_eq_none, Text.mended, String.toList_ofList, List.forall_mem_map] at hfind
    have hmark := hfind c hc
    cases c with
    | none => exact absurd rfl hmark
    | some c => exact or_iff_not_imp_left.mpr (by simpa [Arity.isMark] using hmark)

theorem accepts_arity {sig : Text} {n : Nat} : (arity sig).accepts n = true ↔ Admits sig n := by
  by_cases hstar : some '*' ∈ sig.chars
  · simp [arity, Arity.accepts, Admits, hstar]
  · simp only [arity, Arity.accepts, Admits, hstar, if_false, Bool.and_eq_true, decide_eq_true_eq,
      not_false_eq_true, true_implies]
    omega

end Signature

/-! ## Calls -/

theorem EvalM.bind_of_done {α β : Type} {x : EvalM α} {f : α → EvalM β} {m m' : Machine} {a : α}
    (h : x m = .done a m') : (x >>= f) m = f a m' := by
  change EvalM.andThen x f m = _
  rw [EvalM.andThen, h]

/-- A call that a fault has left, if there is one, is told with it. -/
def Outcome.leaving {α : Type} (site : CallSite) : Outcome α → Outcome α
  | .failed f m => .failed (f.leaving site) m
  | o => o

/-- The place of a fault that has left a call is settled. -/
theorem EvalM.locating_inCall {α : Type} (x : EvalM α) (site : CallSite) (pos : Position)
    (m : Machine) : EvalM.locating pos (EvalM.inCall site x) m = (x m).leaving site := by
  simp only [EvalM.locating, EvalM.inCall, EvalM.mapFault]
  cases x m with
  | done a m' => rfl
  | failed f m' => rfl
  | outOfFuel => rfl

/-- The machine in which a closure's body begins: one more call is open, and the frame of the call
    is there. -/
def Machine.entering (m : Machine) (captured : Nat) (args : List Value) : Machine :=
  { m with store := (Interp.callFrame captured args m.store).2, depth := m.depth + 1 }

/-- A function that does what a signature asks for. With a fitting number of arguments, a call runs
    the body in a frame of its own and closes again when the body has ended. Every other call is
    refused as malformed, and the machine stays as it is. A call in a program is such a call with
    the values of its arguments. -/
structure Function.Obeys (f : Function) (sig : Text) (body : Expr) (captured : Nat) : Prop where
  runs : ∀ (engine : Engine) (fuel scope : Nat) (args : List Value) (m : Machine),
    Signature.Admits sig args.length →
    EvalM.mayEnter engine.depthLimit? m.depth = true →
      engine.invoke (fuel + 1) scope f args m =
        (Eval.visit engine (fuel + 1) (Interp.callFrame captured args m.store).1 body
          (m.entering captured args)).mapMachine fun m' => { m' with depth := m'.depth - 1 }
  refuses : ∀ (engine : Engine) (fuel scope : Nat) (args : List Value) (m : Machine),
    ¬ Signature.Admits sig args.length →
      ∃ fault, engine.invoke (fuel + 1) scope f args m = .failed fault m ∧
        fault.cause = .argumentCount f.arity args.length ∧ fault.reason = .malformed ∧
        ∀ site, (fault.leaving site).reason = .malformed
  called : ∀ (engine : Engine) (fuel scope : Nat) (callee : Target) (args : List Expr)
    (site : CallSite) (m m' m'' : Machine) (id : Nat) (vs : List Value),
    Eval.visit engine fuel scope (.ref callee) m = .done (.function id) m' →
    m'.store.functions[id]? = some f →
    (engine.interp fuel).visitAll scope args m' = .done vs m'' →
      Eval.visit engine (fuel + 1) scope (.call callee args site.text site.pos) m =
        (engine.invoke fuel scope f vs m'').leaving site

theorem Engine.invoke_closure (engine : Engine) (fuel scope : Nat) (arity : Arity) (body : Expr)
    (captured : Nat) (args : List Value) :
    engine.invoke (fuel + 1) scope (.closure arity body captured) args =
      if arity.accepts args.length then (engine.interp (fuel + 1)).callClosure body captured args
      else EvalM.failWith (.argumentCount arity args.length) := rfl

theorem Engine.callClosure_of_mayEnter {engine : Engine} {m : Machine}
    (h : EvalM.mayEnter engine.depthLimit? m.depth = true) (fuel : Nat) (body : Expr)
    (captured : Nat) (args : List Value) :
    (engine.interp fuel).callClosure body captured args m =
      (Eval.visit engine fuel (Interp.callFrame captured args m.store).1 body
        (m.entering captured args)).mapMachine fun m' => { m' with depth := m'.depth - 1 } := by
  change EvalM.nested engine.depthLimit? _ m = _
  rw [EvalM.nested, if_pos h]
  rfl

theorem Eval.visit_call (engine : Engine) (fuel scope : Nat) (callee : Target) (args : List Expr)
    (site : CallSite) :
    Eval.visit engine (fuel + 1) scope (.call callee args site.text site.pos) =
      EvalM.locating site.pos ((engine.interp fuel).call scope callee args site) := rfl

/-- A closure with the arity of a signature obeys it. -/
theorem Function.closure_obeys (sig : Text) (body : Expr) (captured : Nat) :
    (Function.closure (Signature.arity sig) body captured).Obeys sig body captured where
  runs := by
    intro engine fuel scope args m hadmits hdepth
    rw [Engine.invoke_closure, if_pos (Signature.accepts_arity.mpr hadmits),
      Engine.callClosure_of_mayEnter hdepth]
  refuses := by
    intro engine fuel scope args m hadmits
    rw [Engine.invoke_closure, if_neg (mt Signature.accepts_arity.mp hadmits)]
    exact ⟨_, rfl, rfl, rfl, fun _ => rfl⟩
  called := by
    intro engine fuel scope callee args site m m' m'' id vs hcallee hf hargs
    rw [Eval.visit_call, EvalM.locating, EvalM.mapFault]
    have hcall : (engine.interp fuel).call scope callee args site m =
        EvalM.inCall site
          (engine.invoke fuel scope (.closure (Signature.arity sig) body captured) vs) m'' := by
      refine (EvalM.bind_of_done hcallee).trans ?_
      change EvalM.andThen EvalM.store _ m' = _
      simp only [EvalM.andThen, EvalM.store, hf]
      exact EvalM.bind_of_done hargs
    rw [hcall]
    exact EvalM.locating_inCall _ site site.pos m''

namespace Engine

variable {engine : Engine} {fuel scope : Nat} {callee : Target} {signature body : Expr}
  {m m₁ m₂ : Machine} {id : Nat} {sig : Text}

theorem visit_define
    (hcallee : Eval.visit engine fuel scope (.ref callee) m = .done (.function id) m₁)
    (hform : m₁.store.functions[id]? = some (.form .define))
    (hsig : Eval.visit engine fuel scope signature m₁ = .done (.text sig) m₂) (site : CallSite) :
    Eval.visit engine (fuel + 1) scope (.call callee [signature, body] site.text site.pos) m =
      match Arity.ofSignature sig.mended.toList with
      | .ok arity =>
        .done (.function m₂.store.functions.size)
          { m₂ with store := (m₂.store.newFunction (.closure arity body scope)).2 }
      | .error c => .failed ((Fault.of (.signatureCharacter c)).leaving site) m₂ := by
  have hcall : (engine.interp fuel).call scope callee [signature, body] site m =
      EvalM.inCall site ((engine.interp fuel).define scope signature body) m₁ := by
    refine (EvalM.bind_of_done hcallee).trans ?_
    change EvalM.andThen EvalM.store _ m₁ = _
    simp only [EvalM.andThen, EvalM.store, hform]
    rfl
  have hdefine : (engine.interp fuel).define scope signature body m₁ =
      match Arity.ofSignature sig.mended.toList with
      | .ok arity =>
        .done (.function m₂.store.functions.size)
          { m₂ with store := (m₂.store.newFunction (.closure arity body scope)).2 }
      | .error c => .failed (.of (.signatureCharacter c)) m₂ := by
    refine (EvalM.bind_of_done hsig).trans ?_
    dsimp only
    cases Arity.ofSignature sig.mended.toList with
    | ok arity => rfl
    | error c => rfl
  rw [Eval.visit_call, EvalM.locating, EvalM.mapFault, hcall]
  refine (EvalM.locating_inCall _ site site.pos m₁).trans ?_
  rw [hdefine]
  cases Arity.ofSignature sig.mended.toList with
  | ok arity => rfl
  | error c => rfl

/-- `FUNCTION(signature, body)` gives a new function if the value of the signature is a text of
    marks, and the function obeys it. With any other text it fails at the first character that is
    no mark. -/
theorem define_obeys
    (hcallee : Eval.visit engine fuel scope (.ref callee) m = .done (.function id) m₁)
    (hform : m₁.store.functions[id]? = some (.form .define))
    (hsig : Eval.visit engine fuel scope signature m₁ = .done (.text sig) m₂) (site : CallSite) :
    (Signature.WellFormed sig → ∃ f : Function,
      Eval.visit engine (fuel + 1) scope (.call callee [signature, body] site.text site.pos) m =
        .done (.function m₂.store.functions.size)
          { m₂ with store := (m₂.store.newFunction f).2 } ∧
      f.Obeys sig body scope) ∧
    (¬ Signature.WellFormed sig → ∃ c,
      (sig.mended.toList.find? fun c => !Arity.isMark c) = some c ∧
      Eval.visit engine (fuel + 1) scope (.call callee [signature, body] site.text site.pos) m =
        .failed ((Fault.of (.signatureCharacter c)).leaving site) m₂) := by
  rw [visit_define hcallee hform hsig site]
  constructor
  · intro h
    rw [Signature.ofSignature_of_wellFormed h]
    exact ⟨_, rfl, Function.closure_obeys sig body scope⟩
  · intro h
    obtain ⟨c, hc, herror⟩ := Signature.ofSignature_of_not_wellFormed h
    rw [herror]
    exact ⟨c, hc, rfl⟩

/-- `FUNCTION("?*?", ARG)` in a new root scope gives a function of two arguments or more. -/
theorem define_obeys_mixedMarks :
    let m : Machine := { store := Store.empty.newRoot.2, nodes := #[⟨.text, "\"?*?\""⟩] }
    let callee := Target.name "FUNCTION" .start
    let signature := Expr.literal 0 .text "\"?*?\"" ⟨1, 10⟩
    let body := Expr.ref (.name "ARG" ⟨1, 17⟩)
    let m' : Machine := { m with literals := [(0, .text "?*?")] }
    (Eval.visit {} 2 0 (.ref callee) m = .done (.function 11) m ∧
      m.store.functions[11]? = some (.form .define) ∧
      Eval.visit {} 2 0 signature m = .done (.text "?*?") m' ∧ Signature.WellFormed "?*?" ∧
      Signature.Admits "?*?" 3 ∧ ¬ Signature.Admits "?*?" 1) ∧
    ∃ f : Function,
      Eval.visit {} 3 0 (.call callee [signature, body] "FUNCTION(\"?*?\",ARG)" .start) m =
        .done (.function 12) { m' with store := (m'.store.newFunction f).2 } ∧
      f.Obeys "?*?" body 0 := by
  intro m callee signature body m'
  have hlookup : m.store.lookup? 0 "FUNCTION" = some (.function 11) := by decide +kernel
  have hcallee : Eval.visit {} 2 0 (.ref callee) m = .done (.function 11) m := by
    change EvalM.locating .start (fun m => EvalM.check (Slot.read m.store (.name 0 "FUNCTION")) m) m
      = _
    simp only [EvalM.locating, EvalM.mapFault, Slot.read, hlookup]
    rfl
  have hvalue : Literal.value ⟨.text, "\"?*?\""⟩ = .ok (.text "?*?") := by decide +kernel
  have hsig : Eval.visit {} 2 0 signature m = .done (.text "?*?") m' := by
    change EvalM.locating ⟨1, 10⟩ (Eval.literal 0 ⟨.text, "\"?*?\""⟩) m = _
    simp only [EvalM.locating, EvalM.mapFault, Eval.literal, hvalue]
    rfl
  have hmarks : Signature.WellFormed "?*?" := by
    have hall : ((Text.ofString "?*?").chars.all fun c => c = some '?' ∨ c = some '*') = true := by
      decide +kernel
    intro c hc
    exact of_decide_eq_true (List.all_eq_true.mp hall c hc)
  refine ⟨⟨hcallee, rfl, hsig, hmarks, ?_, ?_⟩, ?_⟩
  · unfold Signature.Admits
    decide +kernel
  · unfold Signature.Admits
    decide +kernel
  · exact (define_obeys hcallee rfl hsig ⟨"FUNCTION(\"?*?\",ARG)", .start⟩).1 hmarks

end Engine

end ExprLang
