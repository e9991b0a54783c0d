-- SUMMARY: Cron jobs over whole runs, and when they fire once in each minute they select.
import FruitClawApps.FruitClaw.Scheduler.Operations
import FruitClawApps.FruitClaw.Scheduler.Tick

/-!
# Cron jobs over a run

A cron job does not fire in a minute with the key of the one in which it last fired. The key is made
from the day of the year, the hour and the minute, so two minutes with one key are in different
years.
-/

namespace FruitClaw.Scheduler

open Calendar List

/-! ## Specification -/

/-- The broken-down time of a UTC minute. -/
def utc (minute : Int) : Tm := gmtime (60 * minute)

theorem utc_minuteOf (nowMs : Int64) : utc (minuteOf nowMs) = gmtime (secondOf nowMs) :=
  gmtime_minute (secondOf nowMs)

/-- How often a slot has published an event in a minute. -/
def firedIn (s : State) (i : Nat) (minute : Int) : Nat :=
  (s.log i).countP fun e => e.tickMs.map minuteOf == some minute

/-- Each tick comes no earlier than the one before, and no minute is left out. -/
def Steady (ticks : List TickEnv) : Prop :=
  ticks.IsChain fun a b => a.nowMs ≤ b.nowMs ∧ minuteOf b.nowMs ≤ minuteOf a.nowMs + 1

/-- In the minutes from `first` to `last` the slot has fired once in each minute
that the expression selects, and never in another one. -/
def FiresOnce (s : State) (i : Nat) (expr : CStr) (first last : Int) : Prop :=
  ∀ minute, first ≤ minute → minute ≤ last →
    firedIn s i minute = if CronSelects expr (utc minute) then 1 else 0

/-- No minute that the expression selects has the key of the one it selects before. -/
def KeysDiffer (expr : CStr) (first last : Int) : Prop :=
  ∀ a b, first ≤ a → a < b → b ≤ last → CronSelects expr (utc a) → CronSelects expr (utc b) →
    (∀ c, a < c → c < b → ¬ CronSelects expr (utc c)) → minuteKey (utc a) ≠ minuteKey (utc b)

/-! ## The remembered key -/

section

variable (expr : CStr) (first : Int)

/-- The key that is remembered `n` minutes after the first one. -/
def keyAfter : Nat → Int
  | 0 => -1
  | n + 1 => if fcCronMatches expr (utc (first + n)) then minuteKey (utc (first + n)) else keyAfter n

/-- The job fires in the minute. -/
def Fires (n : Nat) : Prop :=
  fcCronMatches expr (utc (first + n)) = true ∧ minuteKey (utc (first + n)) ≠ keyAfter expr first n

instance (n : Nat) : Decidable (Fires expr first n) := inferInstanceAs (Decidable (_ ∧ _))

variable {expr first}

theorem minuteKey_nonneg (tmv : Tm) : 0 ≤ minuteKey tmv := by
  unfold minuteKey
  omega

variable (expr first) in
/-- The remembered key is that of the last minute that matched. -/
theorem keyAfter_cases (n : Nat) :
    (keyAfter expr first n = -1) ∨
      ∃ k < n, fcCronMatches expr (utc (first + k)) = true ∧
        (∀ j, k < j → j < n → fcCronMatches expr (utc (first + j)) = false) ∧
        keyAfter expr first n = minuteKey (utc (first + k)) := by
  induction n with
  | zero => exact .inl rfl
  | succ n ih =>
    cases hmatch : fcCronMatches expr (utc (first + n)) with
    | true =>
      refine .inr ⟨n, by omega, hmatch, fun j hj hjn => by omega, ?_⟩
      rw [keyAfter, hmatch, if_pos rfl]
    | false =>
      have hsame : keyAfter expr first (n + 1) = keyAfter expr first n := by simp [keyAfter, hmatch]
      rw [hsame]
      rcases ih with hnone | ⟨k, hk, hmk, hbetween, hkey⟩
      · exact .inl hnone
      refine .inr ⟨k, by omega, hmk, fun j hj hjn => ?_, hkey⟩
      rcases Nat.lt_or_ge j n with hlt | hge
      · exact hbetween j hj hlt
      · rw [show j = n by omega]
        exact hmatch

theorem keyAfter_of_last {j k : Nat} (hjk : j < k) (hmatch : fcCronMatches expr (utc (first + j)) = true)
    (hbetween : ∀ m, j < m → m < k → fcCronMatches expr (utc (first + m)) = false) :
    keyAfter expr first k = minuteKey (utc (first + j)) := by
  induction k with
  | zero => omega
  | succ k ih =>
    rw [keyAfter]
    rcases Nat.lt_or_ge j k with hlt | hge
    · have hno := hbetween k hlt (by omega)
      rw [hno, if_neg (by decide)]
      exact ih hlt fun m hm hmk => hbetween m hm (by omega)
    · rw [show k = j by omega, hmatch, if_pos rfl]

/-- A job whose expression fits fires in every minute it selects exactly if
successive ones have different keys. -/
theorem fires_iff_keysDiffer (hlen : expr.length < 48) (n : Nat) :
    (∀ k ≤ n, CronSelects expr (utc (first + k)) → Fires expr first k) ↔ KeysDiffer expr first (first + n) := by
  have hmatch (μ : Int) : fcCronMatches expr (utc μ) = true ↔ CronSelects expr (utc μ) := fcCronMatches_iff hlen _
  have hnone (μ : Int) : fcCronMatches expr (utc μ) = false ↔ ¬ CronSelects expr (utc μ) := by
    rw [← hmatch, Bool.not_eq_true]
  constructor
  · intro h a b ha hab hb hsa hsb hbetween
    obtain ⟨j, rfl⟩ : ∃ j : Nat, a = first + j := ⟨(a - first).toNat, by omega⟩
    obtain ⟨k, rfl⟩ : ∃ k : Nat, b = first + k := ⟨(b - first).toNat, by omega⟩
    -- At `b` the key of `a` is still remembered, and the job fires only if the two differ.
    have hkey := keyAfter_of_last (show j < k by omega) ((hmatch _).mpr hsa)
      fun m hjm hmk => (hnone _).mpr (hbetween _ (by omega) (by omega))
    have hfires := (h k (by omega) hsb).2
    rw [hkey] at hfires
    exact hfires.symm
  intro h k hk hsel
  refine ⟨(hmatch _).mpr hsel, fun hkey => ?_⟩
  -- The remembered key is the initial one, which no minute has, or that of the selected minute before.
  rcases keyAfter_cases expr first k with hstart | ⟨j, hjk, hmj, hbetween, hlast⟩
  · have := minuteKey_nonneg (utc (first + k))
    omega
  refine h (first + j) (first + k) (by omega) (by omega) (by omega) ((hmatch _).mp hmj) hsel
    (fun c hjc hck => ?_) (hlast.symm.trans hkey.symm)
  obtain ⟨m, rfl⟩ : ∃ m : Nat, c = first + m := ⟨(c - first).toNat, by omega⟩
  exact (hnone _).mp (hbetween m (by omega) (by omega))

end

/-! ## Ticks -/

/-- A job as `fc_scheduler_add_cron_ctx` leaves it in its slot. -/
structure CronJob (job : Job) (expr : CStr) : Prop where
  used : job.used = true
  enabled : job.enabled = true
  type : job.type = .cron
  expr : job.expr.str = expr
  key : job.lastMinuteKey = -1

section

variable (cj : CJson) (root : DataRoot) {s : State} {i : Nat} {job : Job} {expr : CStr} {first : Int} {n : Nat}

/-- The work of one tick on a cron job that remembers the key `key`. -/
theorem sweep_cron (hjob : CronJob job expr) {key : Int} (h : s.table.Has i { job with lastMinuteKey := key })
    (tick : TickEnv) :
    (Transition.run (step cj root) s (sweep tick)).table.Has i
        { job with
          lastMinuteKey :=
            if fcCronMatches expr (utc (minuteOf tick.nowMs)) then minuteKey (utc (minuteOf tick.nowMs)) else key } ∧
      ∀ minute, firedIn (Transition.run (step cj root) s (sweep tick)) i minute =
        firedIn s i minute +
          if minute = minuteOf tick.nowMs ∧ fcCronMatches expr (utc (minuteOf tick.nowMs)) = true ∧
              minuteKey (utc (minuteOf tick.nowMs)) ≠ key then 1 else 0 := by
  obtain ⟨htable, hlog⟩ := run_sweep cj root tick h
  have hcron := @tickJob_cron { job with lastMinuteKey := key } hjob.used hjob.enabled hjob.type
    tick.nowMs (tick.slot i)
  rw [← utc_minuteOf, hjob.expr] at hcron
  simp only [firedIn, hlog, emissions, countP_append]
  rw [hcron] at htable ⊢
  by_cases hmatch : fcCronMatches expr (utc (minuteOf tick.nowMs)) = true
  · by_cases hkey : minuteKey (utc (minuteOf tick.nowMs)) = key
    · simp_all
    simp only [hmatch, hkey, ne_eq, not_false_eq_true, and_self, if_true] at htable ⊢
    refine ⟨htable, fun minute => ?_⟩
    by_cases hminute : minuteOf tick.nowMs = minute
    · simp [fcEmitSchedule, hminute]
    · have hne : minute ≠ minuteOf tick.nowMs := fun h => hminute h.symm
      simp [fcEmitSchedule, hminute, hne]
  · simp_all

/-- The slot of a cron job after the ticks of the minutes up to `first + n`. -/
structure Counted (s : State) (i : Nat) (job : Job) (expr : CStr) (first : Int) (n : Nat) : Prop where
  has : s.table.Has i { job with lastMinuteKey := keyAfter expr first (n + 1) }
  fired : ∀ k ≤ n, firedIn s i (first + k) = if Fires expr first k then 1 else 0
  later : ∀ minute, first + n < minute → firedIn s i minute = 0

variable {tick : TickEnv}

theorem Counted.again (hjob : CronJob job expr) (h : Counted s i job expr first n)
    (htick : minuteOf tick.nowMs = first + n) :
    Counted (Transition.run (step cj root) s (sweep tick)) i job expr first n := by
  obtain ⟨htable, hfired⟩ := sweep_cron cj root hjob h.has tick
  rw [htick] at htable hfired
  -- If the minute matches, its own key is the remembered one.
  have hquiet : ¬ (fcCronMatches expr (utc (first + n)) = true ∧
      minuteKey (utc (first + n)) ≠ keyAfter expr first (n + 1)) := by
    rintro ⟨hmatch, hkey⟩
    exact hkey (by rw [keyAfter, hmatch, if_pos rfl])
  have hsame (minute : Int) : firedIn (Transition.run (step cj root) s (sweep tick)) i minute = firedIn s i minute := by
    rw [hfired, if_neg fun hc => hquiet hc.2, Nat.add_zero]
  refine ⟨?_, fun k hk => by rw [hsame, h.fired k hk], fun minute hm => by rw [hsame, h.later minute hm]⟩
  convert htable using 2
  rw [keyAfter]
  split <;> rfl

theorem Counted.next (hjob : CronJob job expr) (h : Counted s i job expr first n)
    (htick : minuteOf tick.nowMs = first + (n + 1 : Nat)) :
    Counted (Transition.run (step cj root) s (sweep tick)) i job expr first (n + 1) := by
  obtain ⟨htable, hfired⟩ := sweep_cron cj root hjob h.has tick
  rw [htick] at htable hfired
  refine ⟨htable, fun k hk => ?_, fun minute hm => ?_⟩
  · rw [hfired]
    rcases Nat.lt_or_ge n k with hlt | hge
    · obtain rfl : k = n + 1 := by omega
      rw [h.later _ (by omega), Nat.zero_add]
      by_cases hfires : Fires expr first (n + 1)
      · rw [if_pos hfires, if_pos ⟨rfl, hfires⟩]
      · rw [if_neg hfires, if_neg fun hc => hfires hc.2]
    · have hearlier : first + (k : Int) ≠ first + (n + 1 : Nat) := by omega
      rw [if_neg fun hc => hearlier hc.1, h.fired k hge, Nat.add_zero]
  · have hafter : minute ≠ first + (n + 1 : Nat) := by omega
    rw [hfired, if_neg fun hc => hafter hc.1, h.later minute (by omega)]

theorem minuteOf_mono {a b : Int64} (h : a ≤ b) : minuteOf a ≤ minuteOf b := by
  have hle : a.toInt ≤ b.toInt := Int64.le_iff_toInt_le.mp h
  have hdiv : a.toInt.tdiv 1000 ≤ b.toInt.tdiv 1000 := Int.tdiv_le_tdiv (by decide) hle
  exact Int.ediv_le_ediv (by decide) hdiv

/-- A steady run counts every minute it passes through. -/
theorem Counted.ticked (hjob : CronJob job expr) {ticks : List TickEnv} (h : Counted s i job expr first n)
    (htick : minuteOf tick.nowMs = first + n) (hsteady : Steady (tick :: ticks)) :
    ∃ m : Nat, minuteOf ((tick :: ticks).getLast (by simp)).nowMs = first + m ∧
      Counted (ticked cj root s ticks) i job expr first m := by
  induction ticks generalizing s tick n with
  | nil => exact ⟨n, htick, h⟩
  | cons next ticks ih =>
    obtain ⟨⟨hle, hnext⟩, hsteady⟩ := isChain_cons_cons.mp hsteady
    have hmono := minuteOf_mono hle
    rw [getLast_cons (by simp), Scheduler.ticked, flatMap_cons, Transition.run_append]
    -- A steady run stays in the minute or goes on to the next one.
    rcases (by omega : minuteOf next.nowMs = first + n ∨ minuteOf next.nowMs = first + (n + 1 : Nat)) with heq | heq
    · exact ih (h.again cj root hjob heq) heq hsteady
    · exact ih (h.next cj root hjob heq) heq hsteady

theorem Counted.start (hjob : CronJob job expr) (h : s.table.Has i job) (hlog : s.log i = []) (tick : TickEnv) :
    Counted (Transition.run (step cj root) s (sweep tick)) i job expr (minuteOf tick.nowMs) 0 := by
  have hkey : { job with lastMinuteKey := -1 } = job := by rw [← hjob.key]
  obtain ⟨htable, hfired⟩ := sweep_cron cj root hjob (hkey ▸ h) tick
  have hnone (minute : Int) : firedIn s i minute = 0 := by simp [firedIn, hlog]
  have hnow : minuteOf tick.nowMs + ((0 : Nat) : Int) = minuteOf tick.nowMs := by simp
  refine ⟨?_, fun k hk => ?_, fun minute hm => ?_⟩
  · rw [keyAfter, hnow]
    exact htable
  · obtain rfl : k = 0 := by omega
    rw [hfired, hnone, Nat.zero_add, hnow]
    by_cases hfires : Fires expr (minuteOf tick.nowMs) 0
    · rw [if_pos hfires, if_pos ⟨rfl, by simpa [Fires, keyAfter] using hfires⟩]
    · rw [if_neg hfires, if_neg fun hc => hfires (by simpa [Fires, keyAfter] using hc.2)]
  · have hafter : minute ≠ minuteOf tick.nowMs := by omega
    rw [hfired, hnone, if_neg fun hc => hafter hc.1]

/-- Over a steady run, a cron job whose expression fits fires as it should exactly
if successive minutes that it selects have different keys. -/
theorem firesOnce_iff_keysDiffer (hjob : CronJob job expr) (hlen : expr.length < 48) (h : s.table.Has i job)
    (hlog : s.log i = []) {ticks : List TickEnv} (hsteady : Steady (tick :: ticks)) :
    FiresOnce (ticked cj root s (tick :: ticks)) i expr (minuteOf tick.nowMs)
        (minuteOf ((tick :: ticks).getLast (by simp)).nowMs) ↔
      KeysDiffer expr (minuteOf tick.nowMs) (minuteOf ((tick :: ticks).getLast (by simp)).nowMs) := by
  obtain ⟨m, hlast, hcounted⟩ := (Counted.start cj root hjob h hlog tick).ticked cj root hjob (by simp) hsteady
  have hrun : ticked cj root s (tick :: ticks) =
      ticked cj root (Transition.run (step cj root) s (sweep tick)) ticks := by
    simp [Scheduler.ticked, Transition.run_append]
  rw [hlast, ← fires_iff_keysDiffer hlen, hrun]
  constructor
  · intro hfires k hk hsel
    have hone := hfires (minuteOf tick.nowMs + k) (by omega) (by omega)
    rw [hcounted.fired k hk, if_pos hsel] at hone
    by_contra hno
    rw [if_neg hno] at hone
    exact absurd hone (by decide)
  intro hfires minute hlow hhigh
  obtain ⟨k, rfl⟩ : ∃ k : Nat, minute = minuteOf tick.nowMs + k := ⟨(minute - minuteOf tick.nowMs).toNat, by omega⟩
  rw [hcounted.fired k (by omega)]
  by_cases hsel : CronSelects expr (utc (minuteOf tick.nowMs + k))
  · rw [if_pos hsel, if_pos (hfires k (by omega) hsel)]
  · rw [if_neg hsel, if_neg fun hf => hsel ((fcCronMatches_iff hlen _).mp hf.1)]

end

/-! ## Added jobs -/

/-- The slot of a job that `fc_scheduler_add_cron_ctx` has added. -/
theorem fcSchedulerAddCronCtx_slot (cj : CJson) (root : DataRoot) {env : OpEnv} {t : JobTable} {id : CStr}
    (expr prompt : CStr) (ctx : Option ToolContext) {i : Nat} {old : Job} (hlock : env.lock = .ok ())
    (hslot : fcAllocJob t id = some (i, old)) :
    ∃ job, (fcSchedulerAddCronCtx cj root env t (some id) (some expr) (some prompt) ctx).table.Has i job ∧
      CronJob job (expr.take 47) := by
  obtain ⟨hi, hused, -⟩ := fcAllocJob_some hslot
  simp only [fcSchedulerAddCronCtx, changeAndSave, hlock, addJob, hslot]
  refine ⟨_, JobTable.has_put_self hi, ?_⟩
  unfold fcScheduleSetContext
  cases ctx <;> dsimp only <;> split <;> exact ⟨hused, rfl, rfl, rfl, rfl⟩

/-- A cron job that was added with an expression of at most 47 bytes and that is not
modified fires exactly once in every minute that the expression selects, over any
steady run of ticks, if and only if no two successive minutes that it selects have
the same day of the year, hour and minute. -/
theorem firesOnce_iff (cj : CJson) (root : DataRoot) (env : OpEnv) (t : JobTable) (id expr prompt : CStr)
    (ctx : Option ToolContext) (i : Nat) (old : Job) (lock : Ret) (boot : Nat → SlotEnv) (files : FileStore)
    (tick : TickEnv) (ticks : List TickEnv)
    (hlock : env.lock = .ok ()) (hslot : fcAllocJob t id = some (i, old)) (hlen : expr.length < 48)
    (hsteady : Steady (tick :: ticks)) :
    FiresOnce
        (ticked cj root
          (started lock boot (fcSchedulerAddCronCtx cj root env t (some id) (some expr) (some prompt) ctx).table files)
          (tick :: ticks))
        i expr (minuteOf tick.nowMs) (minuteOf ((tick :: ticks).getLast (by simp)).nowMs) ↔
      KeysDiffer expr (minuteOf tick.nowMs) (minuteOf ((tick :: ticks).getLast (by simp)).nowMs) := by
  obtain ⟨job, hhas, hjob⟩ := fcSchedulerAddCronCtx_slot cj root expr prompt ctx hlock hslot
  rw [take_of_length_le (by omega)] at hjob
  have hlog := started_log lock boot files hhas (by simp [hjob.type])
  exact firesOnce_iff_keysDiffer cj root hjob hlen (by simpa using hhas) hlog hsteady

/-! ## A job of the new year -/

/-- A tick at the start of a minute. -/
def tickAt (minute : Int) : TickEnv := ⟨.ofInt (60000 * minute), fun _ => idleSlot⟩

/-- One tick in each of `n` minutes. -/
def everyMinute (minute : Int) : Nat → List TickEnv
  | 0 => []
  | n + 1 => tickAt minute :: everyMinute (minute + 1) n

variable {minute : Int}

theorem minuteOf_tickAt (hlow : 0 ≤ minute) (hhigh : minute < 2 ^ 40) : minuteOf (tickAt minute).nowMs = minute := by
  have hms : (Int64.ofInt (60000 * minute)).toInt = 60000 * minute :=
    Int64.toInt_ofInt_of_le (by omega) (by omega)
  have hsec : (60000 * minute).tdiv 1000 = 60 * minute := by
    rw [Int.tdiv_eq_ediv_of_nonneg (by omega)]
    omega
  simp only [minuteOf, secondOf, tickAt, hms, hsec]
  omega

theorem everyMinute_steady (n : Nat) (hlow : 0 ≤ minute) (hhigh : minute + n < 2 ^ 40) :
    Steady (tickAt minute :: everyMinute (minute + 1) n) ∧
      minuteOf ((tickAt minute :: everyMinute (minute + 1) n).getLast (by simp)).nowMs = minute + n := by
  have hnow := minuteOf_tickAt hlow (by omega)
  induction n generalizing minute with
  | zero => exact ⟨.singleton _, by simpa [everyMinute] using hnow⟩
  | succ n ih =>
    have hnext : minuteOf (tickAt (minute + 1)).nowMs = minute + 1 := minuteOf_tickAt (by omega) (by omega)
    obtain ⟨hsteady, hlast⟩ := ih (show 0 ≤ minute + 1 by omega) (by omega) hnext
    have hle : (tickAt minute).nowMs ≤ (tickAt (minute + 1)).nowMs := by
      rw [Int64.le_iff_toInt_le, tickAt, tickAt, Int64.toInt_ofInt_of_le (by omega) (by omega),
        Int64.toInt_ofInt_of_le (by omega) (by omega)]
      omega
    refine ⟨isChain_cons_cons.mpr ⟨⟨hle, by omega⟩, hsteady⟩, ?_⟩
    exact hlast.trans (by omega)

/-- Midnight of the first of January, each year. -/
def yearly : CStr := "0 0 1 1 *".toList

/-- The minute at which 2026 starts, and the minute at which 2027 starts. -/
def newYear2026 : Int := 20454 * 1440

@[inherit_doc newYear2026]
def newYear2027 : Int := 20819 * 1440

theorem yearly_selects {tmv : Tm} (h : CronSelects yearly tmv) :
    tmv.min = 0 ∧ tmv.hour = 0 ∧ tmv.date.mday = 1 ∧ tmv.date.mon = 0 := by
  have hfields : (strtok (fun c => c == ' ' || c == '\t') yearly).take 5 = [['0'], ['0'], ['1'], ['1'], ['*']] := by
    decide
  rw [CronSelects, fieldsMatch, hfields] at h
  simp only [Bool.and_eq_true] at h
  obtain ⟨⟨⟨⟨hmin, hhour⟩, hmday⟩, hmon⟩, -⟩ := h
  have hzero : fcParseUint ['0'] = .ok 0 := rfl
  have hone : fcParseUint ['1'] = .ok 1 := rfl
  have hmin' := fieldSelects_number (by decide) (by decide) (by decide) (by decide) hzero hmin
  have hhour' := fieldSelects_number (by decide) (by decide) (by decide) (by decide) hzero hhour
  have hmday' := fieldSelects_number (by decide) (by decide) (by decide) (by decide) hone hmday
  have hmon' := fieldSelects_number (by decide) (by decide) (by decide) (by decide) hone hmon
  omega

theorem yearly_between (hlow : newYear2026 < minute) (hhigh : minute < newYear2027) :
    ¬ CronSelects yearly (utc minute) := by
  intro h
  obtain ⟨hmin, hhour, hmday, hmon⟩ := yearly_selects h
  -- The other days of 2026 are checked one by one.
  have hdays : ∀ d < 365, 0 < d →
      ¬ ((dateOfDay (20454 + (d : Nat))).mday = 1 ∧ (dateOfDay (20454 + (d : Nat))).mon = 0) := by
    decide +kernel
  unfold newYear2026 at hlow
  unfold newYear2027 at hhigh
  simp only [utc, gmtime] at hmin hhour hmday hmon
  obtain ⟨d, hd⟩ : ∃ d : Nat, 60 * minute / 86400 = 20454 + d := ⟨(60 * minute / 86400 - 20454).toNat, by omega⟩
  rw [hd] at hmday hmon
  exact hdays d (by omega) (by omega) ⟨hmday, hmon⟩

theorem yearly_keys : ¬ KeysDiffer yearly newYear2026 newYear2027 := by
  intro h
  refine h newYear2026 newYear2027 (Int.le_refl _) (by decide) (Int.le_refl _) (by decide) (by decide)
    (fun c hlow hhigh => yearly_between hlow hhigh) (by decide)

/-- The thread with a job of the new year in its first slot. -/
def yearlyStart : State :=
  started (.ok ()) (fun _ => idleSlot)
    (fcSchedulerAddCronCtx JsonText.reference (fcDataDir false) fineEnv .empty (some "a".toList) (some yearly)
      (some "hi".toList) none).table
    fun _ => none

/-- A run over the first minutes of a year. -/
theorem firesOnce_iff_yearly :
    Steady (tickAt newYear2026 :: everyMinute (newYear2026 + 1) 2) ∧
      (FiresOnce
          (ticked JsonText.reference (fcDataDir false) yearlyStart
            (tickAt newYear2026 :: everyMinute (newYear2026 + 1) 2))
          0 yearly newYear2026 (newYear2026 + 2) ↔
        KeysDiffer yearly newYear2026 (newYear2026 + 2)) := by
  have hsteady := (@everyMinute_steady newYear2026 2 (by decide) (by decide)).1
  exact ⟨hsteady,
    firesOnce_iff JsonText.reference (fcDataDir false) fineEnv .empty "a".toList yearly "hi".toList none 0 .fresh
      (.ok ()) (fun _ => idleSlot) (fun _ => none) (tickAt newYear2026) _ rfl rfl (by decide) hsteady⟩

/-- The start of 2027 has the key of the start of 2026, so the job misses it. -/
theorem yearly_misses {n : Nat} (hn : newYear2026 + n = newYear2027) :
    Steady (tickAt newYear2026 :: everyMinute (newYear2026 + 1) n) ∧
      ¬ FiresOnce
        (ticked JsonText.reference (fcDataDir false) yearlyStart
          (tickAt newYear2026 :: everyMinute (newYear2026 + 1) n))
        0 yearly newYear2026 newYear2027 := by
  have hbound : newYear2027 < 2 ^ 40 := by decide
  obtain ⟨hsteady, hlast⟩ := @everyMinute_steady newYear2026 n (by decide) (by omega)
  obtain ⟨job, hhas, hjob⟩ := @fcSchedulerAddCronCtx_slot JsonText.reference (fcDataDir false) fineEnv .empty "a".toList
    yearly "hi".toList none 0 .fresh rfl rfl
  have hlog := started_log (.ok ()) (fun _ => idleSlot) (fun _ => none) hhas (by simp [hjob.type])
  have hstart : yearlyStart.table.Has 0 job := by
    rw [yearlyStart, started_table]
    exact hhas
  have hiff := firesOnce_iff_keysDiffer JsonText.reference (fcDataDir false) hjob (by decide) hstart hlog hsteady
  rw [hlast, hn, minuteOf_tickAt (by decide) (by decide)] at hiff
  exact ⟨hsteady, fun hfires => yearly_keys (hiff.mp hfires)⟩

/-- With one tick in each minute from the start of 2026 to the start of 2027, a
job of the new year does not fire once in each minute that it selects. -/
theorem firesOnce_new_year :
    Steady (tickAt newYear2026 :: everyMinute (newYear2026 + 1) 525600) ∧
      ¬ FiresOnce
        (ticked JsonText.reference (fcDataDir false) yearlyStart
          (tickAt newYear2026 :: everyMinute (newYear2026 + 1) 525600))
        0 yearly newYear2026 newYear2027 :=
  yearly_misses (by decide)

end FruitClaw.Scheduler
