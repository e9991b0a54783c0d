-- SUMMARY: The entered states are the current one and its ancestors, in all runs.
import FruitClawApps.System.Smf.Visits

/-!
# Entered states

A view of the trace keeps the states that were entered and not left. A transition takes away and
adds parts of paths, so the view stays in step with the current state. A machine that an action has
stopped half-way is left as it is.
-/

namespace System.Smf

open List

open Transition (run Meets)

variable {S σ : Type*} {C : Chart S} {A : Actions S σ}

/-! ## Reading a trace -/

/-- What an observer of the trace knows. -/
structure View (S : Type*) where
  /-- entered and not left, the last one first -/
  entered : List S := []
  halted : Bool := false
  /-- an entry or exit action has set `terminate` -/
  cut : Bool := false
  deriving DecidableEq

def View.observe [DecidableEq S] (v : View S) : Event S → View S
  | .start => {}
  | .enter s => { v with entered := s :: v.entered }
  | .exit s => { v with entered := v.entered.erase s }
  | .run _ => v
  | .terminate inRun => { v with halted := true, cut := v.cut || !inRun }

def Event.isAction : Event S → Bool
  | .enter _ | .exit _ | .run _ => true
  | _ => false

/-- No action runs once `terminate` is set, until the machine is started anew. -/
def Silent [DecidableEq S] (trace : List (Event S)) : Prop :=
  Meets View.observe (fun v e => e.isAction = true → v.halted = false) {} trace

def Machine.view [DecidableEq S] (m : Machine S σ) : View S := run View.observe {} m.trace

/-- The visits of a transition are exits, innermost first, and then entries,
outermost first; no proper ancestor of both ends is among them, and a state that
asks for itself is left and entered, if no action stops the machine. -/
def Orderly (C : Chart S) (t : Move S) : Prop :=
  ∃ (outs ins : List S) (ending : List (Event S)), t.visits = outs.map .exit ++ ins.map .enter ++ ending ∧
    (ending = [] ∨ ending = [.terminate false]) ∧
    outs.Nodup ∧ ins.Nodup ∧
    outs.Pairwise (fun a b => C.Above b a) ∧ ins.Pairwise (fun a b => C.Above a b) ∧
    (∀ s, C.Above s t.source → C.Above s t.target → s ∉ outs ∧ s ∉ ins) ∧
    (t.source = t.target → ending = [] → t.target ∈ outs ∧ t.target ∈ ins)

/-! ## Run actions within bounds -/

/-- The action asks for no transition. -/
def Script.NoTransition : Script S σ → Prop
  | .done _ _ => True
  | .terminate _ _ next => ∀ ctx, (next ctx).NoTransition
  | .transition _ _ _ => False

/-- The action asks for one transition at most. -/
def Script.AtMostOne : Script S σ → Prop
  | .done _ _ => True
  | .terminate _ _ next => ∀ ctx, (next ctx).AtMostOne
  | .transition _ _ next => ∀ ctx, (next ctx).NoTransition

/-- The action asks for no transition after it has set `terminate`. -/
def Script.Final : Script S σ → Prop
  | .done _ _ => True
  | .terminate _ _ next => ∀ ctx, (next ctx).NoTransition
  | .transition _ _ next => ∀ ctx, (next ctx).Final

section Decidable

variable [DecidableEq S]

/-! ## Views of visits -/

def Event.IsVisit (e : Event S) : Prop := (∃ s, e = .enter s) ∨ ∃ s, e = .exit s

omit [DecidableEq S] in
theorem isVisit_of_mem {outs ins : List S} {e : Event S} (h : e ∈ outs.map Event.exit ++ ins.map .enter) :
    e.IsVisit := by
  rcases mem_append.mp h with h | h
  · obtain ⟨s, -, rfl⟩ := mem_map.mp h
    exact .inr ⟨s, rfl⟩
  · obtain ⟨s, -, rfl⟩ := mem_map.mp h
    exact .inl ⟨s, rfl⟩

theorem observe_visits {events : List (Event S)} (hvisit : ∀ e ∈ events, e.IsVisit) {v : View S}
    (hv : v.halted = false) :
    (run View.observe v events).halted = false ∧ (run View.observe v events).cut = v.cut ∧
      Meets View.observe (fun v e => e.isAction = true → v.halted = false) v events := by
  induction events generalizing v with
  | nil => exact ⟨hv, rfl, trivial⟩
  | cons e events ih =>
    have hrest := fun e' he' => hvisit e' (mem_cons_of_mem e he')
    rcases hvisit e mem_cons_self with ⟨s, rfl⟩ | ⟨s, rfl⟩
    · obtain ⟨hhalt, hcut, hmeets⟩ := ih hrest (v := v.observe (.enter s)) hv
      exact ⟨hhalt, hcut, fun _ => hv, hmeets⟩
    · obtain ⟨hhalt, hcut, hmeets⟩ := ih hrest (v := v.observe (.exit s)) hv
      exact ⟨hhalt, hcut, fun _ => hv, hmeets⟩

theorem observe_exits (outs rest : List S) (v : View S) (h : v.entered = outs ++ rest) :
    (run View.observe v (outs.map .exit)).entered = rest := by
  induction outs generalizing v with
  | nil => exact h
  | cons s outs ih => exact ih (v.observe (.exit s)) (by simp [View.observe, h])

theorem observe_enters (ins : List S) (v : View S) :
    (run View.observe v (ins.map .enter)).entered = ins.reverse ++ v.entered := by
  induction ins generalizing v with
  | nil => rfl
  | cons s ins ih =>
    refine (ih (v.observe (.enter s))).trans ?_
    simp [View.observe]

theorem Exchange.entered_after {source target current : S} {outs ins shared : List S}
    (h : Exchange C source target current outs ins shared) {v : View S} (hv : v.entered = C.path current) :
    (run View.observe v (outs.map .exit ++ ins.map .enter)).entered = C.path (leaf C target) := by
  rw [Transition.run_append, observe_enters, observe_exits outs shared v (hv.trans h.left), h.entered]

/-- The view after a row of actions: all visits were made, or one of the actions has stopped the
machine. -/
theorem Traces.view {events : List (Event S)} {r : Visited S σ} (hr : Traces events r)
    (hvisit : ∀ e ∈ events, e.IsVisit) {v : View S} (hv : v.halted = false) :
    (run View.observe v r.trace).halted = r.ctx.terminate ∧
      Meets View.observe (fun v e => e.isAction = true → v.halted = false) v r.trace ∧
      ((r.stop = false ∧ r.trace = events) ∨ (r.ctx.terminate = true ∧ (run View.observe v r.trace).cut = true)) := by
  cases hstop : r.stop with
  | false =>
    obtain ⟨hhalt, -, hmeets⟩ := observe_visits hvisit hv
    rw [hr.whole hstop, ← hr.stop, hstop]
    exact ⟨hhalt, hmeets, .inl ⟨rfl, rfl⟩⟩
  | true =>
    obtain ⟨done, hdone, htrace⟩ := hr.part hstop
    obtain ⟨hhalt, -, hmeets⟩ := observe_visits (fun e he => hvisit e (hdone.subset he)) hv
    have hlast : run View.observe v r.trace = (run View.observe v done).observe (.terminate false) := by
      rw [htrace, Transition.run_append]
      rfl
    rw [hlast, ← hr.stop, hstop, htrace]
    exact ⟨rfl, hmeets.append ⟨fun h => absurd h Bool.false_ne_true, trivial⟩, .inr ⟨rfl, by simp [View.observe]⟩⟩

/-! ## The invariant -/

/-- The view and the context agree, and all transitions so far were orderly. -/
structure Inv (C : Chart S) (m : Machine S σ) : Prop where
  halted : m.view.halted = m.ctx.terminate
  silent : Silent m.trace
  entered : m.view.cut = false → m.view.entered = C.path m.ctx.current
  cut : m.view.cut = true → m.ctx.terminate = true
  orderly : ∀ t ∈ m.moves, Orderly C t

omit [DecidableEq S] in
/-- A transition that was cut short is orderly too. -/
theorem Exchange.orderly {source target current : S} {outs ins shared : List S}
    (h : Exchange C source target current outs ins shared) {r : Visited S σ}
    (hr : Traces (outs.map .exit ++ ins.map .enter) r) : Orderly C ⟨source, target, r.trace⟩ := by
  have hout : ∀ {l}, l <+: outs → l.Pairwise (fun a b => C.Above b a) := fun hl =>
    (C.pairwise_path current).sublist (h.left ▸ hl.sublist.trans (sublist_append_left _ _))
  have hin : ∀ {l}, l <+: ins → l.Pairwise (fun a b => C.Above a b) := fun hl => by
    have hrev := (C.pairwise_path (leaf C target)).sublist (h.entered ▸ sublist_append_left _ _)
    exact (pairwise_reverse.mp hrev).sublist hl.sublist
  have hshared : ∀ s ∈ shared, s ∉ outs ∧ s ∉ ins := by
    intro s hs
    have hcur := C.nodup_path current
    have hleaf := C.nodup_path (leaf C target)
    rw [h.left] at hcur
    rw [h.entered] at hleaf
    exact ⟨fun ho => disjoint_of_nodup_append hcur ho hs,
      fun hi => disjoint_of_nodup_append hleaf (mem_reverse.mpr hi) hs⟩
  have hpart : ∀ outs' ins' ending, outs' <+: outs → ins' <+: ins →
      r.trace = outs'.map .exit ++ ins'.map .enter ++ ending → (ending = [] ∨ ending = [.terminate false]) →
      (ending = [] → outs' = outs ∧ ins' = ins) → Orderly C ⟨source, target, r.trace⟩ := by
    intro outs' ins' ending ho hi htrace hending hwhole
    refine ⟨outs', ins', ending, htrace, hending, (hout ho).imp fun h => h.2.symm, (hin hi).imp fun h => h.2,
      hout ho, hin hi, fun s hsrc htgt => ?_, fun heq hend => ?_⟩
    · have hs := hshared s (h.ancestors s hsrc htgt)
      exact ⟨fun hmem => hs.1 (ho.subset hmem), fun hmem => hs.2 (hi.subset hmem)⟩
    · obtain ⟨rfl, rfl⟩ := hwhole hend
      exact h.again heq
  cases hstop : r.stop with
  | false =>
    have htrace : r.trace = outs.map .exit ++ ins.map .enter ++ [] := by rw [hr.whole hstop, append_nil]
    exact hpart outs ins [] prefix_rfl prefix_rfl htrace (.inl rfl) fun _ => ⟨rfl, rfl⟩
  | true =>
    obtain ⟨done, ⟨rest, hdone⟩, htrace⟩ := hr.part hstop
    rcases append_eq_append_iff.mp hdone with ⟨more, hmore, -⟩ | ⟨more, rfl, hmore⟩
    · obtain ⟨o₁, o₂, ho, rfl, -⟩ := map_eq_append_iff.mp hmore
      exact hpart o₁ [] _ ⟨o₂, ho.symm⟩ nil_prefix (by simpa using htrace) (.inr rfl) fun h => by cases h
    · obtain ⟨i₁, i₂, hi, rfl, -⟩ := map_eq_append_iff.mp hmore
      exact hpart outs i₁ _ prefix_rfl ⟨i₂, hi.symm⟩ htrace (.inr rfl) fun h => by cases h

theorem view_append (m : Machine S σ) (events : List (Event S)) :
    run View.observe {} (m.trace ++ events) = run View.observe m.view events := Transition.run_append

variable {m : Machine S σ}

/-- A transition that is asked for while the machine runs keeps the invariant. It leaves the current
state as it is, or says so in `newState`. -/
theorem Inv.smfSetState (hI : Inv C m) (hlive : m.ctx.terminate = false)
    (hexec : m.ctx.executing ∈ C.path m.ctx.current) (target : Option S) :
    Inv C (smfSetState C A m target) ∧ (smfSetState C A m target = m ∨
      (smfSetState C A m target).ctx.newState = true) := by
  unfold System.Smf.smfSetState
  cases target with
  | none => exact ⟨hI, .inl rfl⟩
  | some target =>
    simp only
    split
    case isTrue => exact ⟨hI, .inl rfl⟩
    case isFalse =>
      obtain ⟨outs, ins, shared, hexchange, htraces, hnew, hcurrent⟩ := traces_changeState (A := A) target hlive hexec
      have hv : m.view.halted = false := hI.halted.trans hlive
      have hcut : m.view.cut = false := by
        by_contra hcut
        simpa [hlive] using hI.cut (by simpa using hcut)
      obtain ⟨hhalt, hmeets, hend⟩ := htraces.view (fun e => isVisit_of_mem) hv
      refine ⟨⟨?_, hI.silent.append hmeets, ?_, ?_, ?_⟩, .inr hnew⟩
      · rw [Machine.view, view_append]
        exact hhalt
      · rw [Machine.view, view_append]
        rcases hend with ⟨hstop, htrace⟩ | ⟨-, hstop⟩
        · intro _
          rw [htrace, hcurrent hstop]
          exact hexchange.entered_after (hI.entered hcut)
        · intro h
          exact absurd (hstop.symm.trans h).symm Bool.false_ne_true
      · rw [Machine.view, view_append]
        rcases hend with ⟨hstop, htrace⟩ | ⟨hterm, -⟩
        · rw [htrace, (observe_visits (fun e => isVisit_of_mem) hv).2.1, hcut]
          exact fun h => absurd h Bool.false_ne_true
        · exact fun _ => hterm
      · intro t ht
        rcases mem_append.mp ht with ht | ht
        · exact hI.orderly t ht
        · obtain rfl := mem_singleton.mp ht
          exact hexchange.orderly htraces

theorem Inv.congr {m m' : Machine S σ} (hI : Inv C m) (htrace : m'.trace = m.trace) (hmoves : m'.moves = m.moves)
    (hcurrent : m'.ctx.current = m.ctx.current) (hterm : m'.ctx.terminate = m.ctx.terminate) : Inv C m' := by
  have hview : m'.view = m.view := congrArg (run View.observe {}) htrace
  exact { halted := by rw [hview, hterm, hI.halted]
          silent := htrace ▸ hI.silent
          entered := by rw [hview, hcurrent]; exact hI.entered
          cut := by rw [hview, hterm]; exact hI.cut
          orderly := hmoves ▸ hI.orderly }

/-! ## Run actions -/

/-- The machine has changed its state, or it says that it has not. -/
def Stays (m m' : Machine S σ) : Prop := m'.ctx.newState = false → m'.ctx.current = m.ctx.current

theorem Inv.terminate (hI : Inv C m) (obj : σ) (val : Int) :
    Inv C { m with ctx := smfSetTerminate { m.ctx with obj := obj } val, trace := m.trace ++ [.terminate true] } := by
  have hview : run View.observe {} (m.trace ++ [.terminate true]) = m.view.observe (.terminate true) := view_append m _
  refine ⟨?_, hI.silent.append ⟨fun h => absurd h Bool.false_ne_true, trivial⟩, ?_, fun _ => rfl, hI.orderly⟩
  · rw [Machine.view, hview]
    rfl
  · rw [Machine.view, hview]
    exact fun h => hI.entered (by simpa [View.observe] using h)

/-- Without a transition an action can only set `terminate`. -/
theorem Inv.perform_noTransition {script : Script S σ} (hscript : script.NoTransition)
    (hI : Inv C m) : Inv C (perform C A script m).1 ∧
      (perform C A script m).1.ctx.current = m.ctx.current ∧
      (perform C A script m).1.ctx.newState = m.ctx.newState := by
  induction script generalizing m with
  | done obj handled => exact ⟨hI.congr rfl rfl rfl rfl, rfl, rfl⟩
  | terminate obj val next ih => exact ih _ (hscript _) (hI.terminate obj val)
  | transition obj target next ih => exact hscript.elim

/-- What an action within bounds keeps. -/
theorem Inv.perform {script : Script S σ} (hone : script.AtMostOne) (hfinal : script.Final)
    (hI : Inv C m) (hlive : m.ctx.terminate = false) (hexec : m.ctx.executing ∈ C.path m.ctx.current) :
    Inv C (perform C A script m).1 ∧ Stays m (perform C A script m).1 := by
  cases script with
  | done obj handled => exact ⟨hI.congr rfl rfl rfl rfl, fun _ => rfl⟩
  | terminate obj val next =>
    obtain ⟨hinv, hcurrent, -⟩ := (hI.terminate obj val).perform_noTransition (A := A)
      (hfinal (smfSetTerminate { m.ctx with obj := obj } val))
    exact ⟨hinv, fun _ => hcurrent⟩
  | transition obj target next =>
    have hobj : Inv C { m with ctx := { m.ctx with obj := obj } } := hI.congr rfl rfl rfl rfl
    obtain ⟨hset, hmoved⟩ := hobj.smfSetState (A := A) hlive hexec target
    obtain ⟨hinv, hcurrent, hnew⟩ := hset.perform_noTransition (A := A) (hone _)
    refine ⟨hinv, fun hno => ?_⟩
    rcases hmoved with hsame | hmoved
    · exact hcurrent.trans (by rw [hsame])
    · exact absurd (hno.symm.trans (hnew.trans hmoved)) Bool.false_ne_true

theorem Inv.runAction {s : S} {action : Ctx S σ → Script S σ} (hone : ∀ ctx, (action ctx).AtMostOne)
    (hfinal : ∀ ctx, (action ctx).Final) (hI : Inv C m) (hlive : m.ctx.terminate = false)
    (hexec : m.ctx.executing ∈ C.path m.ctx.current) :
    Inv C (runAction C A s action m) ∧ Stays m (runAction C A s action m) := by
  have hview : run View.observe {} (m.trace ++ [.run s]) = m.view := view_append m _
  have hrun : Inv C { m with trace := m.trace ++ [.run s] } :=
    { halted := by rw [Machine.view, hview, hI.halted]
      silent := hI.silent.append ⟨fun _ => hI.halted.trans hlive, trivial⟩
      entered := by rw [Machine.view, hview]; exact hI.entered
      cut := by rw [Machine.view, hview]; exact hI.cut
      orderly := hI.orderly }
  obtain ⟨hinv, hstays⟩ := hrun.perform (A := A) (hone m.ctx) (hfinal m.ctx) hlive hexec
  exact ⟨hinv.congr rfl rfl rfl rfl, hstays⟩

/-- Every run action keeps within bounds. -/
structure Actions.Bounded (A : Actions S σ) : Prop where
  one : ∀ {s action}, A.run s = some action → ∀ ctx, (action ctx).AtMostOne
  final : ∀ {s action}, A.run s = some action → ∀ ctx, (action ctx).Final

theorem Inv.setExecuting (hI : Inv C m) (s : S) : Inv C (m.setExecuting s) :=
  hI.congr rfl rfl rfl rfl

theorem Inv.ancestorLoop (hA : A.Bounded) {states : List S} (hI : Inv C m)
    (hlive : m.ctx.terminate = false) (hstates : ∀ s ∈ states, s ∈ C.path m.ctx.current) :
    Inv C (ancestorLoop C A states m).1 := by
  induction states generalizing m with
  | nil => exact hI.setExecuting _
  | cons s states ih =>
    have hrest := fun s' hs' => hstates s' (mem_cons_of_mem s hs')
    unfold System.Smf.ancestorLoop
    cases hrun : A.run s with
    | none => exact ih (hI.setExecuting s) hlive hrest
    | some action =>
      obtain ⟨hinv, hstays⟩ := (hI.setExecuting s).runAction (A := A) (s := s) (hA.one hrun) (hA.final hrun)
        hlive (hstates s mem_cons_self)
      simp only
      split
      case isTrue => exact hinv.setExecuting _
      case isFalse hgo =>
        split
        case isTrue => exact hinv.setExecuting _
        case isFalse hnew =>
          have hcurrent := hstays (by simp_all)
          exact ih hinv (by simpa using hgo) (fun s' hs' => hcurrent ▸ hrest s' hs')

theorem Inv.smfExecuteAncestorRunActions (hA : A.Bounded) (hI : Inv C m) :
    Inv C (smfExecuteAncestorRunActions C A m).1 := by
  unfold System.Smf.smfExecuteAncestorRunActions
  split
  case isTrue => exact hI
  case isFalse hlive =>
    split
    case isTrue => exact hI
    case isFalse => exact hI.ancestorLoop hA (by simpa using hlive) fun s hs => C.mem_path_iff.mpr (.inr hs)

/-! ## Calls -/

theorem Inv.smfRunState (hA : A.Bounded) (hI : Inv C m) : Inv C (smfRunState C A m).1 := by
  unfold System.Smf.smfRunState
  split
  case isTrue => exact hI
  case isFalse hlive =>
    have hclear : Inv C { m with ctx := { smfClearInternalState m.ctx with executing := m.ctx.current } } :=
      hI.congr rfl rfl rfl (by simpa [smfClearInternalState] using hlive)
    refine Inv.smfExecuteAncestorRunActions hA ?_
    split
    case h_1 => exact hclear
    case h_2 action hrun =>
      exact (hclear.runAction (hA.one hrun) (hA.final hrun) rfl (C.mem_path_self _)).1

theorem entered_initial {s root : S} (hroot : C.parent root = none) (hmem : root ∈ C.path s) :
    (run View.observe {} (Event.enter root :: (C.upTo (some root) s).reverse.map .enter)).entered = C.path s := by
  have hcov : C.Covers (some root) s := by
    rintro t ⟨⟩
    exact hmem
  have hpath : C.above (some root) = [root] := by
    rw [Forest.above, C.path_eq root, hroot]
    rfl
  rw [← map_cons, observe_enters, ← C.upTo_append hcov, hpath]
  simp

theorem traces_enterInitial (s : S) {ctx : Ctx S σ} (hlive : ctx.terminate = false) :
    ∃ events, Traces events (enterInitial C A ctx s) ∧ (∀ e ∈ events, e.IsVisit) ∧
      (run View.observe {} events).entered = C.path s ∧ (enterInitial C A ctx s).ctx.current = ctx.current := by
  have hnone : C.Covers none s := fun t ht => by cases ht
  obtain ⟨root, rest, hrev, hroot⟩ := C.exists_reverse_upTo hnone (by simp)
  have hmem : root ∈ C.path s := (C.upTo_prefix none s).subset (mem_reverse.mp (hrev ▸ mem_cons_self))
  have hcov : C.Covers (some root) s := fun t ht => Option.some.inj ht ▸ hmem
  have heq : enterInitial C A ctx s = ((enter A root ctx).setExecuting s).andThen fun ctx =>
      smfExecuteAllEntryActions C A ctx s (some root) := by
    rw [enterInitial, ← hroot, getChildOf_parent hmem]
  rw [heq]
  refine ⟨[.enter root] ++ (C.upTo (some root) s).reverse.map .enter, ?_, ?_, entered_initial hroot hmem, ?_⟩
  · exact ((traces_enter root ctx hlive).setExecuting s).andThen fun h => traces_entries hcov h
  · intro e he
    have he' : e ∈ ([] : List S).map Event.exit ++ (root :: (C.upTo (some root) s).reverse).map .enter := he
    exact isVisit_of_mem he'
  · have hfirst : Kept ctx ((enter A root ctx).setExecuting s).ctx := enter_kept root ctx
    exact (Visited.andThen_kept hfirst fun ctx' => entries_kept hcov ctx').1

theorem inv_smfSetInitial (hsilent : Silent m.trace) (horderly : ∀ t ∈ m.moves, Orderly C t) (s : S) :
    Inv C (smfSetInitial C A m s) := by
  have hlive : (m.ctx.begin (leaf C s)).terminate = false := rfl
  obtain ⟨events, htraces, hvisit, hentered, hcurrent⟩ := traces_enterInitial (C := C) (A := A) (leaf C s) hlive
  obtain ⟨hhalt, hmeets, hend⟩ := htraces.view hvisit (v := {}) rfl
  have hview : (smfSetInitial C A m s).view =
      run View.observe {} (enterInitial C A (m.ctx.begin (leaf C s)) (leaf C s)).trace := view_append m _
  refine ⟨?_, ?_, ?_, ?_, horderly⟩
  · rw [hview]
    exact hhalt
  · exact hsilent.append ⟨fun h => absurd h Bool.false_ne_true, hmeets⟩
  · rw [hview]
    rcases hend with ⟨-, htrace⟩ | ⟨-, hcut⟩
    · intro _
      rw [htrace, hentered]
      exact congrArg C.path hcurrent.symm
    · intro h
      exact absurd (hcut.symm.trans h).symm Bool.false_ne_true
  · rw [hview]
    rcases hend with ⟨-, htrace⟩ | ⟨hterm, -⟩
    · rw [htrace, (observe_visits hvisit rfl).2.1]
      exact fun h => absurd h Bool.false_ne_true
    · exact fun _ => hterm

theorem Inv.step (hA : A.Bounded) (hI : Inv C m) (call : Call S) : Inv C (step C A m call) := by
  cases call with
  | setInitial s => exact inv_smfSetInitial hI.silent hI.orderly s
  | runState => exact hI.smfRunState hA

/-- In every run of a machine whose run actions ask for one transition at most, and for none after
they have set `terminate`: no action follows `terminate`, transitions are orderly, and unless an
entry or exit action has stopped the machine the entered states are the current one and its
ancestors. -/
theorem smf_entered (hA : A.Bounded) (ctx : Ctx S σ) (s : S) (calls : List (Call S)) :
    let m := run (step C A) (smfSetInitial C A ⟨ctx, [], []⟩ s) calls
    Silent m.trace ∧ (m.view.cut = false → m.view.entered = C.path m.ctx.current) ∧
      ∀ t ∈ m.moves, Orderly C t := by
  have hnew : Silent (⟨ctx, [], []⟩ : Machine S σ).trace := trivial
  have hstart : Inv C (smfSetInitial C A ⟨ctx, [], []⟩ s) :=
    inv_smfSetInitial hnew (fun t ht => absurd ht not_mem_nil) s
  have hinv : Inv C (run (step C A) (smfSetInitial C A ⟨ctx, [], []⟩ s) calls) :=
    Transition.run_invariant (I := Inv C) (fun m call hm => hm.step hA call) hstart calls
  exact ⟨hinv.silent, hinv.entered, hinv.orderly⟩

end Decidable

/-! ## A sample -/

/-- `inner` is inside `outer`, where a machine also starts. -/
inductive Sample
  | outer
  | inner
  | other
  deriving DecidableEq

namespace Sample

def chart : Chart Sample where
  parent
    | .inner => some .outer
    | _ => none
  initial
    | .outer => some .inner
    | _ => none
  depth
    | .inner => 1
    | _ => 0
  height := 1
  depth_lt := by
    intro v p h
    cases v <;> cases h
    decide
  depth_le := by
    intro s
    cases s <;> decide
  initial_below := by
    intro s i h
    cases s <;> cases h
    exact ⟨by decide, by decide⟩

def ctx : Ctx Sample Unit := ⟨.other, none, .other, 0, false, false, false, false, ()⟩

/-- `outer` restarts itself. -/
def restarts : Actions Sample Unit where
  entry _ := some fun _ => ((), none)
  run
    | .outer => some fun _ => .transition () (some .outer) fun _ => .done () true
    | _ => none
  exit _ := some fun _ => ((), none)

/-- `inner` ends the machine and asks for `other`. -/
def endsAndLeaves : Actions Sample Unit where
  entry _ := none
  run
    | .inner => some fun _ => .terminate () 1 fun _ => .transition () (some .other) fun _ => .done () true
    | _ => none
  exit _ := some fun _ => ((), none)

/-- `inner` asks for `other`, and its exit action ends the machine. -/
def endsInExit : Actions Sample Unit where
  entry _ := none
  run
    | .inner => some fun _ => .transition () (some .other) fun _ => .done () true
    | _ => none
  exit
    | .inner => some fun _ => ((), some 1)
    | _ => none

end Sample

instance {trace : List (Event Sample)} : Decidable (Silent trace) := inferInstanceAs (Decidable (Meets _ _ _ _))

theorem smf_entered_restart : Sample.restarts.Bounded ∧
    let m := run (step Sample.chart Sample.restarts)
      (smfSetInitial Sample.chart Sample.restarts ⟨Sample.ctx, [], []⟩ .outer) [.runState]
    m.moves.length = 1 ∧ m.view.entered = [.inner, .outer] ∧ ∀ t ∈ m.moves, Orderly Sample.chart t := by
  have hbounded : Sample.restarts.Bounded := by
    constructor <;> intro s action h <;> cases s <;> cases h <;> intro ctx
    all_goals exact fun _ => trivial
  refine ⟨hbounded, ?_⟩
  obtain ⟨-, hentered, horderly⟩ := smf_entered (C := Sample.chart) hbounded Sample.ctx .outer [.runState]
  exact ⟨by decide, hentered (by decide), horderly⟩

/-- A run action that sets `terminate` and then asks for a transition still has exit actions called,
and an exit action that sets it leaves the machine between two states. -/
theorem not_smf_entered :
    ((∀ s action, Sample.endsAndLeaves.run s = some action → ∀ ctx, (action ctx).AtMostOne) ∧
      ¬ Silent (run (step Sample.chart Sample.endsAndLeaves)
        (smfSetInitial Sample.chart Sample.endsAndLeaves ⟨Sample.ctx, [], []⟩ .outer) [.runState]).trace) ∧
    (∀ s action, Sample.endsInExit.run s = some action → ∀ ctx, (action ctx).AtMostOne) ∧
      let m := run (step Sample.chart Sample.endsInExit)
        (smfSetInitial Sample.chart Sample.endsInExit ⟨Sample.ctx, [], []⟩ .outer) [.runState]
      m.view.entered ≠ Sample.chart.path m.ctx.current := by
  refine ⟨⟨?_, by decide⟩, ?_, by decide⟩
  · intro s action h ctx
    cases s <;> cases h
    exact fun _ _ => trivial
  intro s action h ctx
  cases s <;> cases h
  exact fun _ => trivial

end System.Smf
