-- SUMMARY: Which states the loops of smf.c visit on a transition.
import FruitClawApps.System.Smf.Machine

/-!
# Visits

The loops over parent links visit the part of a path below `topmost`. A transition takes away the
part of the current path that the path of the new state does not share, and adds the part of the new
one.
-/

namespace System.Smf

open List

variable {S σ : Type*} {C : Chart S} {A : Actions S σ} {new : S} {top : Option S} {ctx : Ctx S σ} {r : Visited S σ}

/-! ## The loops visit parts of paths -/

theorem descend_below (n : Nat) (s : S) : s ∈ C.path (descend C n s) := by
  induction n generalizing s with
  | zero => exact C.mem_path_self s
  | succ n ih =>
    cases hi : C.initial s with
    | none => simp [descend, hi]
    | some i =>
      simp only [descend, hi]
      exact C.path_trans (C.initial_below hi).1 (ih i)

theorem leaf_below (s : S) : s ∈ C.path (leaf C s) := descend_below _ s

theorem getChildOf_parent [DecidableEq S] {s : S} (h : s ∈ C.path new) : getChildOf C new (C.parent s) = some s := by
  unfold getChildOf
  obtain ⟨x, hx⟩ : ∃ x, (C.path new).find? (fun state => C.parent state = C.parent s) = some x :=
    Option.isSome_iff_exists.mp (find?_isSome.mpr ⟨s, h, by simp⟩)
  have hpar : C.parent x = C.parent s := by simpa using find?_some hx
  rw [hx, C.parent_inj (mem_of_find?_eq_some hx) h hpar]

@[simp] theorem Visited.andThen_none (r : Visited S σ) : r.andThen .none = r := by
  obtain ⟨ctx, trace, stop⟩ := r
  cases stop <;> simp [Visited.andThen, Visited.none]

theorem Visited.andThen_assoc (r : Visited S σ) (f g : Ctx S σ → Visited S σ) :
    (r.andThen f).andThen g = r.andThen fun ctx => (f ctx).andThen g := by
  obtain ⟨ctx, trace, stop⟩ := r
  cases stop with
  | true => rfl
  | false =>
    cases hf : (f ctx).stop <;> simp [Visited.andThen, hf]

/-- `get_child_of` finds its way down a path, state by state. -/
theorem entryLoop_eq [DecidableEq S] (l : List S) (c : S) (n : Nat) (ctx : Ctx S σ)
    (hchain : (c :: l).IsChain fun a b => C.parent b = some a) (hmem : ∀ s ∈ c :: l, s ∈ C.path new)
    (hnodup : (c :: l).Nodup) (hlast : (c :: l).getLast? = some new) (hn : l.length < n) :
    (entryLoop C A new n (some c) ctx).andThen (enter A new) = visitAll (enter A) (c :: l) ctx := by
  induction l generalizing c n ctx with
  | nil =>
    obtain rfl : c = new := by simpa using hlast
    obtain ⟨n, rfl⟩ : ∃ k, n = k + 1 := ⟨n - 1, by simp at hn; omega⟩
    have hloop : entryLoop C A c (n + 1) (some c) ctx = .none ctx := if_pos rfl
    rw [hloop]
    exact ((enter A c ctx).andThen_none).symm
  | cons d l ih =>
    obtain ⟨n, rfl⟩ : ∃ k, n = k + 1 := ⟨n - 1, by simp at hn; omega⟩
    have hne : c ≠ new := by
      rintro rfl
      have hin : c ∈ d :: l := mem_of_getLast? (by simpa using hlast)
      exact (nodup_cons.mp hnodup).1 hin
    obtain ⟨hpar, htail⟩ := isChain_cons_cons.mp hchain
    have hnext : getChildOf C new (some c) = some d := by
      rw [← hpar]
      exact getChildOf_parent (hmem d (by simp))
    rw [entryLoop, if_neg hne, hnext, Visited.andThen_assoc, visitAll]
    congr 1
    funext ctx'
    exact ih d n ctx' htail (fun s hs => hmem s (mem_cons_of_mem _ hs)) (nodup_cons.mp hnodup).2
      (by simpa using hlast) (by simpa using hn)

theorem smfExecuteAllEntryActions_eq [DecidableEq S] (hcov : C.Covers top new) (ctx : Ctx S σ) :
    ∃ s, smfExecuteAllEntryActions C A ctx new top =
      (visitAll (enter A) (C.upTo top new).reverse ctx).setExecuting s := by
  by_cases htop : some new = top
  · refine ⟨ctx.executing, ?_⟩
    rw [smfExecuteAllEntryActions, if_pos htop, ← htop, C.upTo_self]
    rfl
  obtain ⟨c, rest, hrev, hc⟩ := C.exists_reverse_upTo hcov htop
  have hsub : ∀ s ∈ c :: rest, s ∈ C.path new := fun s hs =>
    (C.upTo_prefix top new).subset (mem_reverse.mp (hrev ▸ hs))
  have hchain : (c :: rest).IsChain fun a b => C.parent b = some a := by
    obtain ⟨above, habove⟩ := C.upTo_prefix top new
    have hpath := C.isChain_path new
    rw [← habove] at hpath
    rw [← hrev, isChain_reverse]
    exact hpath.left_of_append
  have hnodup : (c :: rest).Nodup := by
    rw [← hrev, nodup_reverse]
    exact (C.nodup_path new).sublist (C.upTo_prefix top new).sublist
  have hlast : (c :: rest).getLast? = some new := by
    rw [← hrev, getLast?_reverse, C.upTo_of_ne htop]
    rfl
  have hlen : rest.length < (C.path new).length := by
    have hle := (C.upTo_prefix top new).length_le
    rw [← length_reverse, hrev, length_cons] at hle
    omega
  have hfirst : getChildOf C new top = some c := by
    rw [← hc]
    exact getChildOf_parent (hsub c mem_cons_self)
  refine ⟨(visitAll (enter A) (C.upTo top new).reverse ctx).ctx.current, ?_⟩
  rw [smfExecuteAllEntryActions, if_neg htop, hfirst, entryLoop_eq rest c _ ctx hchain hsub hnodup hlast hlen, hrev]

/-! ## What rows of actions leave in the trace -/

/-- The events in full, or the first of them up to an action that sets `terminate`. -/
structure Traces (events : List (Event S)) (r : Visited S σ) : Prop where
  stop : r.stop = r.ctx.terminate
  whole : r.stop = false → r.trace = events
  part : r.stop = true → ∃ done, done <+: events ∧ r.trace = done ++ [.terminate false]

/-- Entry and exit actions do not move the machine. -/
def Kept (ctx ctx' : Ctx S σ) : Prop := ctx'.current = ctx.current ∧ ctx'.newState = ctx.newState

theorem Kept.trans {a b c : Ctx S σ} (hab : Kept a b) (hbc : Kept b c) : Kept a c :=
  ⟨hbc.1.trans hab.1, hbc.2.trans hab.2⟩

theorem Traces.none (hlive : ctx.terminate = false) : Traces [] (Visited.none ctx) where
  stop := hlive.symm
  whole _ := rfl
  part h := absurd h Bool.false_ne_true

theorem Traces.andThen {events more : List (Event S)} {next : Ctx S σ → Visited S σ} (hr : Traces events r)
    (hnext : r.ctx.terminate = false → Traces more (next r.ctx)) : Traces (events ++ more) (r.andThen next) := by
  obtain ⟨ctx, trace, stop⟩ := r
  cases stop with
  | true =>
    obtain ⟨done, hdone, htrace⟩ := hr.part rfl
    exact { stop := hr.stop
            whole := fun h => absurd h.symm Bool.false_ne_true
            part := fun _ => ⟨done, hdone.trans (prefix_append _ _), htrace⟩ }
  | false =>
    have hrest := hnext hr.stop.symm
    have htrace : trace = events := hr.whole rfl
    subst htrace
    refine ⟨hrest.stop, fun h => ?_, fun h => ?_⟩
    · exact congrArg (trace ++ ·) (hrest.whole h)
    obtain ⟨done, hdone, hpart⟩ := hrest.part h
    refine ⟨trace ++ done, (prefix_append_right_inj trace).mpr hdone, ?_⟩
    change trace ++ (next ctx).trace = _
    rw [hpart, append_assoc]

theorem Traces.setExecuting {events : List (Event S)} (hr : Traces events r) (s : S) :
    Traces events (r.setExecuting s) := ⟨hr.stop, hr.whole, hr.part⟩

theorem traces_visit {event : Event S} {method : Option (Method S σ)} (hlive : ctx.terminate = false) :
    Traces [event] (visit event method ctx) := by
  cases method with
  | none => exact ⟨hlive.symm, fun _ => rfl, fun h => absurd h Bool.false_ne_true⟩
  | some m =>
    simp only [visit]
    rcases m ctx with ⟨obj, _ | val⟩
    · exact ⟨rfl, fun _ => rfl, fun h => absurd (hlive.symm.trans h) Bool.false_ne_true⟩
    · exact ⟨rfl, fun h => absurd h.symm Bool.false_ne_true, fun _ => ⟨[event], prefix_rfl, rfl⟩⟩

theorem visit_kept (event : Event S) (method : Option (Method S σ)) (ctx : Ctx S σ) :
    Kept ctx (visit event method ctx).ctx ∧ (visit event method ctx).ctx.executing = ctx.executing := by
  cases method with
  | none => exact ⟨⟨rfl, rfl⟩, rfl⟩
  | some m =>
    simp only [visit]
    rcases m ctx with ⟨obj, _ | val⟩ <;> exact ⟨⟨rfl, rfl⟩, rfl⟩

theorem Visited.andThen_kept {next : Ctx S σ → Visited S σ} (hr : Kept ctx r.ctx)
    (hnext : ∀ ctx', Kept ctx' (next ctx').ctx) : Kept ctx (r.andThen next).ctx := by
  unfold Visited.andThen
  split
  · exact hr
  · exact hr.trans (hnext r.ctx)

theorem visitAll_kept {f : S → Ctx S σ → Visited S σ} (hf : ∀ s ctx, Kept ctx (f s ctx).ctx) (l : List S)
    (ctx : Ctx S σ) : Kept ctx (visitAll f l ctx).ctx := by
  induction l generalizing ctx with
  | nil => exact ⟨rfl, rfl⟩
  | cons s l ih => exact Visited.andThen_kept (hf s ctx) ih

theorem traces_visitAll {f : S → Ctx S σ → Visited S σ} {event : S → Event S}
    (hf : ∀ s ctx, ctx.terminate = false → Traces [event s] (f s ctx)) (l : List S) (hlive : ctx.terminate = false) :
    Traces (l.map event) (visitAll f l ctx) := by
  induction l generalizing ctx with
  | nil => exact Traces.none hlive
  | cons s l ih => exact (hf s ctx hlive).andThen fun h => ih h

theorem traces_enter (s : S) (ctx : Ctx S σ) (hlive : ctx.terminate = false) :
    Traces [.enter s] (enter A s ctx) := traces_visit hlive

theorem traces_exit (s : S) (ctx : Ctx S σ) (hlive : ctx.terminate = false) :
    Traces [.exit s] (exit A s ctx) := traces_visit hlive

theorem enter_kept (s : S) (ctx : Ctx S σ) : Kept ctx (enter A s ctx).ctx :=
  (visit_kept (.enter s) (A.entry s) _).1

theorem exit_kept (s : S) (ctx : Ctx S σ) : Kept ctx (exit A s ctx).ctx :=
  (visit_kept (.exit s) (A.exit s) _).1

/-- All entry actions below `topmost`, outermost first. -/
theorem traces_entries [DecidableEq S] (hcov : C.Covers top new) (hlive : ctx.terminate = false) :
    Traces ((C.upTo top new).reverse.map .enter) (smfExecuteAllEntryActions C A ctx new top) := by
  obtain ⟨s, heq⟩ := smfExecuteAllEntryActions_eq (A := A) hcov ctx
  rw [heq]
  exact (traces_visitAll traces_enter _ hlive).setExecuting s

theorem entries_kept [DecidableEq S] (hcov : C.Covers top new) (ctx : Ctx S σ) :
    Kept ctx (smfExecuteAllEntryActions C A ctx new top).ctx := by
  obtain ⟨s, heq⟩ := smfExecuteAllEntryActions_eq (A := A) hcov ctx
  rw [heq]
  exact visitAll_kept enter_kept _ ctx

/-- All exit actions below `topmost`, innermost first. -/
theorem traces_exits [DecidableEq S] (top : Option S) (hlive : ctx.terminate = false) :
    Traces ((C.upTo top ctx.current).map .exit) (smfExecuteAllExitActions C A ctx top) ∧
      Kept ctx (smfExecuteAllExitActions C A ctx top).ctx :=
  ⟨(traces_visitAll traces_exit _ hlive).setExecuting _, visitAll_kept exit_kept _ ctx⟩

/-! ## A transition exchanges the inner parts of two paths -/

/-- `outs` and `ins` are what the paths of the current and of the new state do not share. -/
structure Exchange (C : Chart S) (source target current : S) (outs ins shared : List S) : Prop where
  left : C.path current = outs ++ shared
  entered : C.path (leaf C target) = ins.reverse ++ shared
  ancestors : ∀ s, C.Above s source → C.Above s target → s ∈ shared
  again : source = target → target ∈ outs ∧ target ∈ ins

section Decidable

variable [DecidableEq S]

@[simp] theorem isDescendantOf_iff {s t : S} : isDescendantOf C s t = true ↔ t ∈ C.path s := by
  simp [isDescendantOf]

/-- In each of the four cases `topmost` is above both ends, and below their common proper
ancestors. -/
theorem topmostOf_spec {source current : S} (target : S) (hs : source ∈ C.path current) :
    C.Covers (topmostOf C source target) current ∧ C.Covers (topmostOf C source target) target ∧
      ∀ s, C.Above s source → C.Above s target → s ∈ C.above (topmostOf C source target) := by
  unfold topmostOf
  split
  case isTrue hsib =>
    have hpar : ∀ {s}, C.Covers (C.parent s) s := fun t ht => C.mem_path_of_parent ht
    refine ⟨hpar.of_mem C.toForest hs, hsib.2 ▸ hpar, fun s hup _ => C.above_iff.mp hup⟩
  case isFalse =>
    split
    case isTrue hup =>
      rw [isDescendantOf_iff] at hup
      refine ⟨?_, ?_, fun s _ hs => hs.1⟩
      · rintro t ⟨⟩
        exact C.path_trans hup hs
      · rintro t ⟨⟩
        exact C.mem_path_self _
    case isFalse hnot =>
      split
      case isTrue hdown =>
        rw [isDescendantOf_iff] at hdown
        refine ⟨?_, ?_, fun s hup _ => hup.1⟩
        · rintro t ⟨⟩
          exact hs
        · rintro t ⟨⟩
          exact hdown
      case isFalse hdown =>
        refine ⟨?_, ?_, fun s hup hs => ?_⟩
        · intro t ht
          exact C.path_trans (C.mem_path_iff.mpr (.inr (mem_of_find?_eq_some ht))) hs
        · intro t ht
          exact isDescendantOf_iff.mp (find?_some ht)
        rw [C.above_iff] at hup
        cases hp : C.parent source with
        | none => simp [hp, Forest.above] at hup
        | some p =>
          rw [hp] at hup
          rw [getLcaOf, hp]
          exact C.mem_above_find hup (isDescendantOf_iff.mpr hs.1)

theorem exchange_changeState {source current : S} (target : S) (hs : source ∈ C.path current) :
    ∃ shared, Exchange C source target current
      (C.upTo (topmostOf C source target) current ++ if source = target then [target] else [])
      ((if source = target then [target] else []) ++ (C.upTo (topmostOf C source target) (leaf C target)).reverse)
      shared := by
  obtain ⟨hcur, htgt, habove⟩ := topmostOf_spec target hs
  have hleaf := htgt.of_mem C.toForest (leaf_below target)
  by_cases heq : source = target
  · subst heq
    have htop : topmostOf C source source = some source := by simp [topmostOf]
    rw [htop] at hcur hleaf ⊢
    have hshared : C.above (some source) = source :: C.above (C.parent source) := C.path_eq source
    refine ⟨C.above (C.parent source), ?_, ?_, fun s hup _ => C.above_iff.mp hup, fun _ => by simp⟩
    · simp [← C.upTo_append hcur, hshared]
    · simp [← C.upTo_append hleaf, hshared]
  · refine ⟨C.above (topmostOf C source target), ?_, ?_, habove, fun h => absurd h heq⟩
    · simp [heq, C.upTo_append hcur]
    · simp [heq, C.upTo_append hleaf]

omit [DecidableEq S] in
theorem Visited.andThen_ctx {P : Ctx S σ → Prop} {r : Visited S σ} {next : Ctx S σ → Visited S σ}
    (hr : P r.ctx) (hnext : ∀ ctx, P ctx → P (next ctx).ctx) : P (r.andThen next).ctx := by
  unfold Visited.andThen
  split
  · exact hr
  · exact hnext r.ctx hr

omit [DecidableEq S] in
theorem Visited.andThen_last {P : Ctx S σ → Prop} {r : Visited S σ} {next : Ctx S σ → Visited S σ}
    (hnext : (next r.ctx).stop = false → P (next r.ctx).ctx) (h : (r.andThen next).stop = false) :
    P (r.andThen next).ctx := by
  obtain ⟨ctx, trace, stop⟩ := r
  cases stop with
  | true => exact absurd h.symm Bool.false_ne_true
  | false => exact hnext h

variable {ctx : Ctx S σ}

variable (target : S)

theorem traces_leaveSelf (hlive : ctx.terminate = false) :
    Traces ((if ctx.executing = target then [target] else []).map .exit) (leaveSelf A target ctx) := by
  unfold leaveSelf
  split
  · exact traces_visit hlive
  · exact Traces.none hlive

theorem traces_enterSelf (hlive : ctx.terminate = false) :
    Traces ((if ctx.executing = target then [target] else []).map .enter) (enterSelf A target ctx) := by
  unfold enterSelf
  simp only
  split
  · exact traces_visit hlive
  · exact Traces.none hlive

/-- The steps before the arrival keep what the arrival relies on. -/
theorem leaveSelf_kept (ctx : Ctx S σ) :
    (leaveSelf A target ctx).ctx.executing = ctx.executing ∧ (leaveSelf A target ctx).ctx.newState = ctx.newState := by
  unfold leaveSelf
  split
  · exact ⟨(visit_kept _ _ ctx).2, (visit_kept _ _ ctx).1.2⟩
  · exact ⟨rfl, rfl⟩

theorem enterSelf_newState (ctx : Ctx S σ) :
    (enterSelf A target ctx).ctx.newState = ctx.newState := by
  unfold enterSelf
  simp only
  split
  · exact (visit_kept _ _ _).1.2
  · rfl

theorem traces_arrive {top : Option S} {target : S} (hcov : C.Covers top (leaf C target))
    (hlive : ctx.terminate = false) :
    Traces ((C.upTo top (leaf C target)).reverse.map .enter) (arrive C A top target ctx) :=
  traces_entries hcov hlive

theorem arrive_kept {top : Option S} {target : S} (hcov : C.Covers top (leaf C target)) (ctx : Ctx S σ) :
    (arrive C A top target ctx).ctx.current = leaf C target ∧
      (arrive C A top target ctx).ctx.newState = ctx.newState :=
  entries_kept hcov _

/-- What a transition asked for by a run action visits. -/
theorem traces_changeState (hlive : ctx.terminate = false) (hexec : ctx.executing ∈ C.path ctx.current) :
    ∃ outs ins shared, Exchange C ctx.executing target ctx.current outs ins shared ∧
      Traces (outs.map .exit ++ ins.map .enter) (changeState C A ctx target) ∧
      (changeState C A ctx target).ctx.newState = true ∧
      ((changeState C A ctx target).stop = false → (changeState C A ctx target).ctx.current = leaf C target) := by
  obtain ⟨shared, hexchange⟩ := exchange_changeState target hexec
  have hcov : C.Covers (topmostOf C ctx.executing target) (leaf C target) :=
    (topmostOf_spec target hexec).2.1.of_mem C.toForest (leaf_below target)
  have hlive' : ctx.leaving.terminate = false := hlive
  obtain ⟨hexits, hkept⟩ := traces_exits (A := A) (topmostOf C ctx.executing target) hlive'
  -- the state variables that the later steps look at
  have hself : ((smfExecuteAllExitActions C A ctx.leaving (topmostOf C ctx.executing target)).andThen
      (leaveSelf A target)).ctx.executing = ctx.executing ∧
      ((smfExecuteAllExitActions C A ctx.leaving (topmostOf C ctx.executing target)).andThen
      (leaveSelf A target)).ctx.newState = true :=
    Visited.andThen_ctx (P := fun c => c.executing = ctx.executing ∧ c.newState = true) ⟨rfl, hkept.2⟩
      fun c hc => ⟨(leaveSelf_kept target c).1.trans hc.1, (leaveSelf_kept target c).2.trans hc.2⟩
  have hback : Traces _ _ := (hexits.andThen fun h => traces_leaveSelf (A := A) target h).andThen
    fun h => traces_enterSelf (A := A) target h
  refine ⟨_, _, shared, hexchange, ?_, ?_, ?_⟩
  · have hall := hback.andThen fun h => traces_arrive (A := A) hcov h
    rw [hself.1] at hall
    rw [map_append, map_append, ← append_assoc]
    exact hall
  · refine Visited.andThen_ctx (P := fun c => c.newState = true) ?_ fun c hc => ?_
    · exact Visited.andThen_ctx (P := fun c => c.newState = true) hself.2
        fun c hc => (enterSelf_newState target c).trans hc
    · exact (arrive_kept hcov _).2.trans hc
  · exact Visited.andThen_last (P := fun c => c.current = leaf C target) fun _ => (arrive_kept hcov _).1

end Decidable

end System.Smf
