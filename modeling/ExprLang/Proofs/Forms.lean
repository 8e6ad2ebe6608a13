import ExprLang.Proofs.FaultPlaces
import ExprLang.Proofs.LiteralCache

/-!
# Forms in terms of others

A loop with a start and an increment is a loop with a condition alone (`Engine.loopFor_settles`),
and a choice among branches is a nest of conditionals (`Engine.choose_settles`). The expressions
that say so nest deeper than the forms do, so that they need more fuel. Computations are therefore
compared by what they come to: one with less fuel approximates one with more, and two sequences of
computations that approximate each other settle on the same ending.
-/

namespace ExprLang

/-! ## Less fuel -/

/-- The first computation ends as the second does, unless it runs out of fuel. -/
def EvalM.Approximates {α : Type} (x y : EvalM α) : Prop := ∀ m, x m ≠ .outOfFuel → y m = x m

namespace EvalM.Approximates

variable {α β : Type} {x y : EvalM α}

theorem refl (x : EvalM α) : x.Approximates x := fun _ _ => rfl

theorem exhausted (y : EvalM α) : EvalM.exhausted.Approximates y := fun _ h => absurd rfl h

theorem bind (h : x.Approximates y) {f g : α → EvalM β} (hfg : ∀ a, (f a).Approximates (g a)) :
    (x >>= f).Approximates (y >>= g) := by
  intro m hend
  change andThen x f m ≠ .outOfFuel at hend
  change andThen y g m = andThen x f m
  simp only [andThen] at hend ⊢
  have hx : x m ≠ .outOfFuel := by
    intro hx
    rw [hx] at hend
    exact hend rfl
  rw [h m hx]
  cases hxm : x m with
  | done a m' =>
    rw [hxm] at hend
    exact hfg a m' hend
  | failed fault m' => rfl
  | outOfFuel => exact absurd hxm hx

theorem ite (c : Bool) {x' y' : EvalM α} (h : x.Approximates y) (h' : x'.Approximates y') :
    (if c then x else x').Approximates (if c then y else y') := by
  cases c with
  | true => exact h
  | false => exact h'

/-- Loops of fewer rounds whose tests and bodies have less fuel. -/
theorem loop {test test' : EvalM Bool} {body body' : EvalM Value} (htest : test.Approximates test')
    (hbody : body.Approximates body') {rounds rounds' : Nat} (hle : rounds ≤ rounds') (v : Value) :
    (Eval.loop test body rounds v).Approximates (Eval.loop test' body' rounds' v) := by
  induction rounds generalizing rounds' v with
  | zero => exact exhausted _
  | succ rounds ih =>
    obtain ⟨rounds', rfl⟩ : ∃ n, rounds' = n + 1 := ⟨rounds' - 1, by omega⟩
    refine htest.bind fun go => ite go (hbody.bind fun result => ?_) (refl _)
    exact ih (Nat.le_of_succ_le_succ hle) result

/-- Computations that approximate each other come to the same ending, if only to want more fuel for
    ever. -/
theorem settles {xs ys : Nat → EvalM α}
    (hxy : ∀ i, ∀ᶠ j in Filter.atTop, (xs i).Approximates (ys j))
    (hyx : ∀ j, ∀ᶠ i in Filter.atTop, (ys j).Approximates (xs i)) (m : Machine) :
    ∃ o, Settles (fun i => xs i m) o ∧ Settles (fun j => ys j m) o := by
  by_cases hend : ∃ i, xs i m ≠ .outOfFuel
  · obtain ⟨i, hi⟩ := hend
    have hys : ∀ᶠ j in Filter.atTop, ys j m = xs i m := (hxy i).mono fun j hj => hj m hi
    obtain ⟨j, hj⟩ := hys.exists
    have hxs : ∀ᶠ i' in Filter.atTop, xs i' m = xs i m := by
      filter_upwards [hyx j] with i' hi'
      rw [hi' m (hj ▸ hi), hj]
    exact ⟨xs i m, hxs, hys⟩
  · push Not at hend
    refine ⟨.outOfFuel, .of_forall hend, .of_forall fun j => ?_⟩
    by_contra hj
    obtain ⟨i, hi⟩ := (hyx j).exists
    exact hj ((hi m hj).symm.trans (hend i))

end EvalM.Approximates

/-- Computations whose faults have places already. -/
def EvalM.Placed {α : Type} (x : EvalM α) : Prop :=
  ∀ ⦃m f m'⦄, x m = .failed f m' → f.place ≠ none

namespace EvalM.Placed

variable {α β : Type} {x : EvalM α}

theorem bind (hx : x.Placed) {f : α → EvalM β} (hf : ∀ a, (f a).Placed) : (x >>= f).Placed := by
  intro m fault m' h
  change andThen x f m = _ at h
  simp only [andThen] at h
  cases hxm : x m with
  | done a m₁ =>
    rw [hxm] at h
    exact hf a h
  | failed fault' m₁ =>
    rw [hxm] at h
    cases h
    exact hx hxm
  | outOfFuel =>
    rw [hxm] at h
    cases h

/-- Such faults are not located again. -/
theorem locating_eq (hx : x.Placed) (pos : Position) : EvalM.locating pos x = x := by
  funext m
  simp only [EvalM.locating, mapFault]
  cases hxm : x m with
  | failed f m' =>
    cases hplace : f.place with
    | none => exact absurd hplace (hx hxm)
    | some p => simp only [Fault.located, hplace]
  | done a m' => rfl
  | outOfFuel => rfl

end EvalM.Placed

namespace Eval

variable {engine : Engine} {scope : Nat} {fuel fuel' : Nat}

theorem visit_approximates (hle : fuel ≤ fuel') (e : Expr) :
    (visit engine fuel scope e).Approximates (visit engine fuel' scope e) :=
  fun _ hend => visit_of_le hle hend

theorem visit_placed (engine : Engine) (fuel scope : Nat) (e : Expr) :
    (visit engine fuel scope e).Placed :=
  fun _ _ _ h => place_of_visit h

theorem condition_approximates (hle : fuel ≤ fuel') (e : Expr) :
    ((engine.interp fuel).condition scope e).Approximates
      ((engine.interp fuel').condition scope e) :=
  (visit_approximates hle e).bind fun _ => .refl _

theorem condition_placed (engine : Engine) (fuel scope : Nat) (e : Expr) :
    ((engine.interp fuel).condition scope e).Placed := by
  refine .bind (visit_placed engine fuel scope e) fun v m f m' h => ?_
  change EvalM.andThen EvalM.store _ m = _ at h
  simp only [EvalM.andThen, EvalM.store] at h
  cases htruth : m.store.truthy? v with
  | some b =>
    rw [htruth] at h
    cases h
  | none =>
    rw [htruth] at h
    cases h
    exact Option.some_ne_none _

/-- Parentheses do nothing but use fuel. -/
theorem visit_group (engine : Engine) (fuel scope : Nat) (e : Expr) (pos : Position) :
    visit engine (fuel + 1) scope (.group e pos) = visit engine fuel scope e :=
  (visit_placed engine fuel scope e).locating_eq pos

theorem visit_sequence (engine : Engine) (fuel scope : Nat) (e e' : Expr) (pos : Position) :
    visit engine (fuel + 1) scope (.binary .sequence e e' pos) =
      visit engine fuel scope e >>= fun _ => visit engine fuel scope e' :=
  EvalM.Placed.locating_eq
    (.bind (visit_placed engine fuel scope e) fun _ => visit_placed engine fuel scope e') pos

theorem visit_conditional (engine : Engine) (fuel scope : Nat) (test ifTrue ifFalse : Expr)
    (pos : Position) :
    visit engine (fuel + 1) scope (.conditional test ifTrue ifFalse pos) =
      (engine.interp fuel).condition scope test >>= fun holds =>
        if holds then visit engine fuel scope ifTrue else visit engine fuel scope ifFalse := by
  have htest := condition_placed engine fuel scope test
  refine EvalM.Placed.locating_eq (.bind htest fun holds => ?_) pos
  cases holds with
  | true => exact visit_placed engine fuel scope ifTrue
  | false => exact visit_placed engine fuel scope ifFalse

end Eval

/-! ## Loops -/

namespace Engine

variable {engine : Engine} {scope : Nat} {fuel fuel' : Nat}

/-- The start of a loop, then a loop with a condition. -/
theorem startThenLoop_approximates (hle : fuel ≤ fuel') (start test : Expr)
    {body body' : EvalM Value} (hbody : body.Approximates body') :
    EvalM.Approximates
      (do
        let _ ← (engine.interp fuel).visit scope start
        Eval.loop ((engine.interp fuel).condition scope test) body fuel .zero)
      (do
        let _ ← (engine.interp fuel').visit scope start
        Eval.loop ((engine.interp fuel').condition scope test) body' fuel' .zero) := by
  refine (Eval.visit_approximates hle start).bind fun _ => ?_
  exact .loop (Eval.condition_approximates hle test) hbody hle .zero

/-- `FOR(start, test, increment, body)` comes to the same value and the same machine, with the same
    printed text and the same store, as `start` followed by `WHILE(test, (body; increment))`, or to
    the same fault at the same place and the same machine, or neither of them ends. -/
theorem loopFor_settles (engine : Engine) (scope : Nat) (start test increment body : Expr)
    (pos pos' : Position) (m : Machine) :
    ∃ o, Settles (fun fuel =>
        (engine.interp fuel).callForm scope .loopFor [start, test, increment, body] m) o ∧
      Settles (fun fuel =>
        ((engine.interp fuel).visit scope start >>= fun _ =>
          (engine.interp fuel).callForm scope .loopWhile
            [test, .group (.binary .sequence body increment pos) pos']) m) o := by
  -- the body of the second loop is that of the first, two steps further down
  have hbody (fuel : Nat) :
      Eval.visit engine (fuel + 2) scope (.group (.binary .sequence body increment pos) pos') =
        Eval.visit engine fuel scope body >>= fun _ => Eval.visit engine fuel scope increment := by
    rw [Eval.visit_group, Eval.visit_sequence]
  refine EvalM.Approximates.settles (fun fuel => ?_) (fun fuel => ?_) m
  · filter_upwards [Filter.eventually_ge_atTop (fuel + 2)] with fuel' hle
    refine startThenLoop_approximates (by omega) start test ?_
    exact (hbody fuel).symm ▸ Eval.visit_approximates hle _
  · filter_upwards [Filter.eventually_ge_atTop fuel] with fuel' hle
    refine startThenLoop_approximates hle start test ?_
    exact hbody fuel' ▸ Eval.visit_approximates (by omega) _

end Engine

/-! ## Choices -/

/-- Conditionals, perhaps in parentheses, that make the choice that a list of tests and branches
    asks for. A last branch that is missing is zero. -/
inductive Expr.Chooses : List Expr → Expr → Prop
  | missing (node : Nat) (pos : Position) : Chooses [] (.literal node .int "0" pos)
  | otherwise (e : Expr) : Chooses [e] e
  | branch (test ifTrue : Expr) {args : List Expr} {ifFalse : Expr} (h : Chooses args ifFalse)
    (pos : Position) : Chooses (test :: ifTrue :: args) (.conditional test ifTrue ifFalse pos)
  | group {args : List Expr} {e : Expr} (h : Chooses args e) (pos : Position) :
    Chooses args (.group e pos)

namespace Expr.Chooses

variable {engine : Engine} {scope : Nat} {args : List Expr} {e : Expr}

/-- A last branch that is missing can be added. -/
theorem append_zero (h : Chooses args e) (heven : args.length % 2 = 0) :
    ∃ node pos, Chooses (args ++ [.literal node .int "0" pos]) e := by
  induction h with
  | missing node pos => exact ⟨node, pos, .otherwise _⟩
  | otherwise e => cases heven
  | branch test ifTrue _ pos ih =>
    obtain ⟨node, pos', h'⟩ := ih (by simp only [List.length_cons] at heven; omega)
    exact ⟨node, pos', .branch test ifTrue h' pos⟩
  | group _ pos ih =>
    obtain ⟨node, pos', h'⟩ := ih heven
    exact ⟨node, pos', .group h' pos⟩

/-- The nodes of the arguments are nodes of the conditionals. -/
theorem nodes_subset (h : Chooses args e) : ∀ arg ∈ args, arg.nodes ⊆ e.nodes := by
  induction h with
  | missing node pos => exact nofun
  | otherwise e => exact List.forall_mem_singleton.mpr (List.Subset.refl _)
  | branch test ifTrue _ pos ih =>
    refine List.forall_mem_cons.mpr ⟨nodes_part List.mem_cons_self, ?_⟩
    refine List.forall_mem_cons.mpr ⟨nodes_part (List.mem_cons_of_mem _ List.mem_cons_self), ?_⟩
    intro arg harg
    refine List.Subset.trans (ih arg harg) (nodes_part ?_)
    exact List.mem_cons_of_mem _ (List.mem_cons_of_mem _ List.mem_cons_self)
  | group _ pos ih => exact ih

/-- With fuel to spare for each conditional and each pair of parentheses, the conditionals do what
    the choice does. -/
theorem choose_approximates (h : Chooses args e) (hodd : args.length % 2 = 1) (fuel : Nat) :
    ∀ᶠ fuel' in Filter.atTop, ((engine.interp fuel).choose scope args).Approximates
      (Eval.visit engine fuel' scope e) := by
  induction h with
  | missing node pos => cases hodd
  | otherwise e =>
    filter_upwards [Filter.eventually_ge_atTop fuel] with fuel' hle
    exact Eval.visit_approximates hle e
  | branch test ifTrue _ pos ih =>
    have hrest := ih (by simp only [List.length_cons] at hodd; omega)
    filter_upwards [(Filter.tendsto_sub_atTop_nat 1).eventually hrest,
      Filter.eventually_ge_atTop (fuel + 1)] with fuel' hrest' hle
    obtain ⟨fuel', rfl⟩ : ∃ n, fuel' = n + 1 := ⟨fuel' - 1, by omega⟩
    have hle' := Nat.le_of_succ_le_succ hle
    rw [Eval.visit_conditional]
    refine (Eval.condition_approximates hle' test).bind fun holds => ?_
    exact .ite holds (Eval.visit_approximates hle' ifTrue) hrest'
  | group _ pos ih =>
    filter_upwards [(Filter.tendsto_sub_atTop_nat 1).eventually (ih hodd),
      Filter.eventually_ge_atTop 1] with fuel' hinner hpos
    obtain ⟨fuel', rfl⟩ : ∃ n, fuel' = n + 1 := ⟨fuel' - 1, by omega⟩
    rw [Eval.visit_group]
    exact hinner

theorem visit_approximates (h : Chooses args e) (hodd : args.length % 2 = 1) {fuel fuel' : Nat}
    (hle : fuel ≤ fuel') :
    (Eval.visit engine fuel scope e).Approximates ((engine.interp fuel').choose scope args) := by
  induction h generalizing fuel with
  | missing node pos => cases hodd
  | otherwise e => exact Eval.visit_approximates hle e
  | branch test ifTrue _ pos ih =>
    cases fuel with
    | zero => exact .exhausted _
    | succ fuel =>
      have hle' := Nat.le_of_succ_le hle
      rw [Eval.visit_conditional]
      refine (Eval.condition_approximates hle' test).bind fun holds => ?_
      refine .ite holds (Eval.visit_approximates hle' ifTrue) (ih ?_ hle')
      simp only [List.length_cons] at hodd
      omega
  | group _ pos ih =>
    cases fuel with
    | zero => exact .exhausted _
    | succ fuel =>
      rw [Eval.visit_group]
      exact ih hodd (Nat.le_of_succ_le hle)

/-- Conditionals with a last branch come to what the choice comes to. -/
theorem settles (h : Chooses args e) (hodd : args.length % 2 = 1) (engine : Engine) (scope : Nat)
    (m : Machine) :
    ∃ o, Settles (fun fuel => (engine.interp fuel).choose scope args m) o ∧
      Settles (fun fuel => Eval.visit engine fuel scope e m) o := by
  refine EvalM.Approximates.settles (h.choose_approximates hodd) (fun fuel => ?_) m
  filter_upwards [Filter.eventually_ge_atTop fuel] with fuel' hle
  exact h.visit_approximates hodd hle

end Expr.Chooses

namespace Engine

variable {engine : Engine} {scope : Nat} {fuel fuel' : Nat}

/-- More fuel leaves a choice that ends as it is. -/
theorem choose_approximates (hle : fuel ≤ fuel') : ∀ args : List Expr,
    ((engine.interp fuel).choose scope args).Approximates
      ((engine.interp fuel').choose scope args)
  | [] => .refl _
  | [e] => Eval.visit_approximates hle e
  | test :: ifTrue :: args =>
    (Eval.condition_approximates hle test).bind fun holds =>
      .ite holds (Eval.visit_approximates hle ifTrue) (choose_approximates hle args)

/-- A last branch that is missing is as good as a zero, but that the zero is remembered. -/
theorem choose_append_zero (node : Nat) (pos : Position) :
    ∀ {args : List Expr}, args.length % 2 = 0 → ∀ {m : Machine}, m.Coherent →
      (∀ arg ∈ args ++ [.literal node .int "0" pos], (Links.listed m.nodes).Knows arg) →
      ((engine.interp (fuel + 1)).choose scope args m).forgetful =
        ((engine.interp (fuel + 1)).choose scope
          (args ++ [.literal node .int "0" pos]) m).forgetful
  | [], _, m, hm, hknown => by
    have hzero : Literal.value ⟨.int, "0"⟩ = .ok .zero := by decide
    have hnode : m.nodes[node]? = some ⟨.int, "0"⟩ :=
      hknown _ List.mem_cons_self (⟨.int, "0"⟩, node) List.mem_cons_self
    change _ = (EvalM.locating pos (Eval.literal node ⟨.int, "0"⟩) m).forgetful
    simp only [EvalM.locating, EvalM.mapFault, Eval.literal_eq, hm.literals.recalled hnode, hzero]
    rfl
  | test :: ifTrue :: args, heven, m, hm, hknown => by
    change (EvalM.andThen _ _ m).forgetful = (EvalM.andThen _ _ m).forgetful
    simp only [EvalM.andThen]
    rw [List.cons_append, List.forall_mem_cons, List.cons_append, List.forall_mem_cons] at hknown
    obtain ⟨htest, -, hargs⟩ := hknown
    have hcoherent := coherent_of_condition engine (fuel + 1) scope hm htest
    cases hend : (engine.interp (fuel + 1)).condition scope test m with
    | done holds m' =>
      cases holds with
      | true => rfl
      | false =>
        rw [hend] at hcoherent
        obtain ⟨hm', hextends⟩ := hcoherent m' rfl
        have heven' : args.length % 2 = 0 := by
          simp only [List.length_cons] at heven
          omega
        refine choose_append_zero node pos heven' hm' fun arg harg => ?_
        exact (hargs arg harg).mono (Links.listed_le_iff.mpr hextends)
    | failed f m' => rfl
    | outOfFuel => rfl

/-- `IF(c, t, c', t', ..., e)` comes to the same value and the same machine as
    `c ? t : (c' ? t' : ... e)`, or to the same fault at the same place and the same machine, or
    neither of them ends. If the last branch is missing, there is a zero in its place, and the
    machines may differ in whether that zero is remembered, but in nothing else. -/
theorem choose_settles (engine : Engine) (scope : Nat) {args : List Expr} {e : Expr}
    (h : Expr.Chooses args e) (m : Machine) :
    ∃ o o', Settles (fun fuel => (engine.interp fuel).callForm scope .choose args m) o ∧
      Settles (fun fuel => Eval.visit engine fuel scope e m) o' ∧
      (args.length % 2 = 1 → o = o') ∧
      (m.Coherent → (Links.listed m.nodes).Knows e → o.forgetful = o'.forgetful) := by
  rcases Nat.mod_two_eq_zero_or_one args.length with heven | hodd
  · obtain ⟨node, pos, h'⟩ := h.append_zero heven
    have hodd' : (args ++ [Expr.literal node .int "0" pos]).length % 2 = 1 := by
      rw [List.length_append, List.length_singleton]
      omega
    obtain ⟨o', hchoose', hvisit⟩ := h'.settles hodd' engine scope m
    have hmono (fuel : Nat) : ∀ᶠ fuel' in Filter.atTop,
        ((engine.interp fuel).choose scope args).Approximates
          ((engine.interp fuel').choose scope args) := by
      filter_upwards [Filter.eventually_ge_atTop fuel] with fuel' hle
      exact choose_approximates hle args
    obtain ⟨o, hchoose, -⟩ := EvalM.Approximates.settles hmono hmono m
    refine ⟨o, o', hchoose, hvisit, fun hodd => by omega, fun hm hknown => ?_⟩
    obtain ⟨fuel, ⟨ho, ho'⟩, hpos⟩ :=
      ((hchoose.and hchoose').and (Filter.eventually_ge_atTop 1)).exists
    obtain ⟨fuel, rfl⟩ : ∃ n, fuel = n + 1 := ⟨fuel - 1, by omega⟩
    rw [← ho, ← ho']
    refine choose_append_zero node pos heven hm fun arg harg x hx => ?_
    exact hknown x (h'.nodes_subset arg harg hx)
  · obtain ⟨o, hchoose, hvisit⟩ := h.settles hodd engine scope m
    exact ⟨o, o, hchoose, hvisit, fun _ => rfl, fun _ _ => rfl⟩

/-- A number that does not hold as a condition and a text that does. -/
def mixedNames : Store where
  frames := #[⟨none, 0, .ofList [("N", .int 0), ("T", .text "yes")]⟩]

/-- `IF(N++, T, T, N++)` counts up, goes past the first condition and comes to the branch of the
    second, which counts up again, as `N++ ? T : (T ? N++ : 0)` does. -/
theorem choose_settles_mixedNames :
    let m : Machine := { store := mixedNames, nodes := #[⟨.int, "0"⟩], literals := [(0, .int 0)] }
    let count := Expr.stepAfter .increment (.name "N" ⟨1, 4⟩) ⟨1, 5⟩
    let t := Expr.ref (.name "T" ⟨1, 9⟩)
    let nest := Expr.conditional count t
      (.group (.conditional t count (.literal 0 .int "0" ⟨1, 22⟩) ⟨1, 14⟩) ⟨1, 11⟩) ⟨1, 7⟩
    (Expr.Chooses [count, t, t, count] nest ∧ m.Coherent ∧ (Links.listed m.nodes).Knows nest ∧
      (Eval.visit {} 5 0 nest m).machine?.map (fun m' => (m'.store.bindings 0).get? "N") =
        some (some (.int 2))) ∧
    ∃ o o',
      Settles (fun fuel => (Engine.interp {} fuel).callForm 0 .choose [count, t, t, count] m) o ∧
      Settles (fun fuel => Eval.visit {} fuel 0 nest m) o' ∧ o.forgetful = o'.forgetful := by
  intro m count t nest
  have hnest : Expr.Chooses [count, t, t, count] nest :=
    .branch count t (.group (.branch t count (.missing 0 _) _) _) _
  have hm : m.Coherent := by decide +kernel
  have hknown : (Links.listed m.nodes).Knows nest := by decide +kernel
  refine ⟨⟨hnest, hm, hknown, by decide +kernel⟩, ?_⟩
  obtain ⟨o, o', hchoose, hvisit, -, hsame⟩ := choose_settles {} 0 hnest m
  exact ⟨o, o', hchoose, hvisit, hsame hm hknown⟩

end Engine

end ExprLang
