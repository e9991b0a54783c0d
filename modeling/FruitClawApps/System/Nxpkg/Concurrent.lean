-- SUMMARY: Installations in parallel, and when none of them is lost.
import FruitClawApps.Lib.Threads
import FruitClawApps.System.Nxpkg.AllOrNothing

/-!
# Installations in parallel

The lock of an installation is that of its package, and the database is one file for all: it is
read, extended and renamed. Two installations that do this at the same time lose an entry. For each
run a phase says what it knows of the database. The calls are checked against the phases, and the
phases are linked to the store.
-/

namespace System.Nxpkg

open FileProgram Prog Threads LexicalPath List

/-! ## Runs in parallel -/

/-- A run of `pkg_install`. -/
structure Runner where
  prog : Prog Bool
  /-- It has read the database, and has neither renamed a new one to it nor ended. -/
  inDb : Bool

def inDbAfter (inDb : Bool) (c : Call) (r : Reply) (rest : Prog Bool) : Bool :=
  if rest.value.isSome then false
  else if c = .read repoInstalled then true
  else if c = .rename (tmpName repoInstalled) repoInstalled ∧ r = .ok [] then false
  else inDb

/-- The next call of a run. -/
def Runner.next (_ : Nat) (fs : FileStore) (x : Runner) (o : Outcome) : FileStore × Runner :=
  match x.prog with
  | .ret _ => (fs, x)
  | .call c k => ((c.exec fs o).2, ⟨k (c.exec fs o).1, inDbAfter x.inDb c (c.exec fs o).1 (k (c.exec fs o).1)⟩)

theorem Runner.next_ret {fs : FileStore} {x : Runner} {b : Bool} (h : x.prog = .ret b) (t : Nat) (o : Outcome) :
    Runner.next t fs x o = (fs, x) := by
  rw [Runner.next, h]

theorem Runner.next_call {fs fs' : FileStore} {x : Runner} {c : Call} {k : Reply → Prog Bool} {o : Outcome} {r : Reply}
    (h : x.prog = .call c k) (hexec : c.exec fs o = (r, fs')) (t : Nat) :
    Runner.next t fs x o = (fs', ⟨k r, inDbAfter x.inDb c r (k r)⟩) := by
  rw [Runner.next, h]
  simp only [hexec]

variable (s : System FileStore Runner)

def parallelStep (l : Nat × Outcome) : System FileStore Runner := s.step Runner.next l

/-- All runs are at their start. -/
def parallelStart (env : Env) (fs : FileStore) (names : Nat → CStr) : System FileStore Runner :=
  ⟨fs, fun t => ⟨pkgInstall env (names t), false⟩⟩

/-- The next call of the run is a read of the database. -/
def ReadsInstalled (t : Nat) : Prop :=
  (s.threads t).prog.nextCall = some (.read repoInstalled)

/-- A run reads the database only if no other run is at it. -/
def Exclusive (l : Nat × Outcome) : Prop :=
  ReadsInstalled s l.1 → ∀ u, u ≠ l.1 → (s.threads u).inDb = false

/-! ## Phases -/

/-- What a run knows of the database. -/
inductive Phase where
  | outside
  /-- It has read this one. -/
  | loaded (db : List Entry)
  /-- It has read this one, and has written a part of the new file. -/
  | writing (db : List Entry) (done : List Char)
  /-- An error has come up meanwhile. -/
  | lost
  /-- It has renamed the file of this one. -/
  | saved (db : List Entry)

namespace Phase

def inside : Phase → Bool
  | .outside => false
  | .saved _ => false
  | _ => true

/-- It may read the database. -/
def ready : Phase → Bool
  | .outside => true
  | .loaded _ => true
  | .lost => true
  | _ => false

/-- The database that it has read. -/
def base : Phase → Option (List Entry)
  | .loaded db => some db
  | .writing db _ => some db
  | _ => none

end Phase

/-- The call has nothing to do with the database. -/
def Aside (c : Call) : Prop :=
  (∀ f ∈ c.changes, f ≠ repoInstalled ∧ f ≠ tmpName repoInstalled ∧ f ≠ repoIndex) ∧ c ≠ .read repoInstalled

/-- The new file may be renamed: it is a database with all entries of the old one. -/
def Publishable (env : Env) (db : List Entry) (done : List Char) : Prop :=
  ∃ db', BoundedDb db' ∧ done = env.cj.print (installedJson db') ∧ ∀ n v, Listed db n v → Listed db' n v

/-- The calls that a phase allows. -/
def Permitted (env : Env) (g : Phase) (c : Call) : Prop :=
  Aside c ∨ (c = .read repoInstalled ∧ g.ready = true) ∨ (c = .unlink (tmpName repoInstalled) ∧ g.inside = true) ∨
    match g with
    | .loaded _ => c = .create (tmpName repoInstalled)
    | .writing db done => (∃ bytes, bytes ≠ [] ∧ c = .write (tmpName repoInstalled) bytes) ∨
        (c = .rename (tmpName repoInstalled) repoInstalled ∧ Publishable env db done)
    | _ => False

/-- The phase after a call. -/
inductive Moves (env : Env) (fs₀ : FileStore) : Phase → Call → Reply → Phase → Prop where
  | aside {g : Phase} {c : Call} {r : Reply} (h : Aside c)
      (hindex : c = .read repoIndex → ∀ text, r = .ok text → fs₀ repoIndex = some text) : Moves env fs₀ g c r g
  | load {g : Phase} {db : List Entry} (h : BoundedDb db) :
      Moves env fs₀ g (.read repoInstalled) (.ok (env.cj.print (installedJson db))) (.loaded db)
  | missing {g : Phase} : Moves env fs₀ g (.read repoInstalled) (.error .enoent) (.loaded [])
  | unread {g : Phase} {e : Errno} (h : e ≠ .enoent) : Moves env fs₀ g (.read repoInstalled) (.error e) .lost
  | create {db : List Entry} :
      Moves env fs₀ (.loaded db) (.create (tmpName repoInstalled)) (.ok []) (.writing db [])
  | uncreated {g : Phase} {e : Errno} : Moves env fs₀ g (.create (tmpName repoInstalled)) (.error e) .lost
  | write {db : List Entry} {done taken rest : List Char} (h : taken ≠ []) :
      Moves env fs₀ (.writing db done) (.write (tmpName repoInstalled) (taken ++ rest)) (.ok rest)
        (.writing db (done ++ taken))
  | unwritten {g : Phase} {bytes : List Char} {e : Errno} :
      Moves env fs₀ g (.write (tmpName repoInstalled) bytes) (.error e) .lost
  | rename {db db' : List Entry} (h : BoundedDb db') :
      Moves env fs₀ (.writing db (env.cj.print (installedJson db')))
        (.rename (tmpName repoInstalled) repoInstalled) (.ok [])
        (.saved db')
  | unrenamed {g : Phase} {e : Errno} :
      Moves env fs₀ g (.rename (tmpName repoInstalled) repoInstalled) (.error e) .lost
  | unlink {g : Phase} {r : Reply} : Moves env fs₀ g (.unlink (tmpName repoInstalled)) r .lost

/-- The world of the phases. -/
def phaseWorld (env : Env) (fs₀ : FileStore) : World Phase := ⟨Permitted env, Moves env fs₀⟩

variable {env : Env} {fs fs' fs₀ : FileStore} {m : Manifest} {name : CStr} {g g' : Phase} {c : Call} {r : Reply}

theorem Moves.of_aside (hm : Moves env fs₀ g c r g') (h : Aside c) :
    g' = g ∧ (c = .read repoIndex → ∀ text, r = .ok text → fs₀ repoIndex = some text) := by
  obtain ⟨hchanges, hread⟩ := h
  cases hm with
  | aside _ hindex => exact ⟨rfl, hindex⟩
  | load | missing | unread => exact absurd rfl hread
  | create => exact absurd rfl (hchanges _ mem_cons_self).2.1
  | uncreated => exact absurd rfl (hchanges _ mem_cons_self).2.1
  | write | unwritten | rename | unrenamed | unlink => exact absurd rfl (hchanges _ mem_cons_self).2.1

/-! ## The phases of an installation -/

theorem wp_aside {α : Type} {p : Prog α} (h : p.Calls Aside) : p.wp (phaseWorld env fs₀) (fun _ g' => g' = g) g :=
  wp_of_calls h fun _ hc => ⟨.inl hc, fun _ _ hm => (Moves.of_aside hm hc).1⟩

/-- A program that may read the database besides stays ready. -/
theorem wp_ready {α : Type} {p : Prog α} (h : p.Calls fun c => Aside c ∨ c = .read repoInstalled)
    (hg : g.ready = true) :
    p.wp (phaseWorld env fs₀) (fun _ g' => g'.ready = true) g := by
  induction p generalizing g with
  | ret a => exact hg
  | call c k ih =>
    obtain ⟨hc, hk⟩ := h
    refine ⟨hc.imp_right fun hc => .inl ⟨hc, hg⟩, fun r g' hm => ih r (hk r) ?_⟩
    rcases hc with hc | rfl
    · rw [(Moves.of_aside hm hc).1]
      exact hg
    cases hm with
    | aside h _ => exact absurd rfl h.2
    | load | missing | unread => rfl

theorem wp_loadInstalled_phase (hg : g.ready = true) :
    wp (phaseWorld env fs₀) (loadInstalled env).prog
      (fun r g' => ∀ db, r = .ok db → g' = .loaded db ∧ BoundedDb db) g := by
  refine wp_format_bind (fun db hdb => (nomatch hdb)) (wp_bind (wp_perform (.inr (.inl ⟨rfl, hg⟩)) fun r g' hm => ?_))
  cases hm with
  | aside h _ => exact absurd rfl h.2
  | load h =>
    intro db hdb
    cases Except.ok.inj ((parseInstalled_print env.cj h).symm.trans hdb)
    exact ⟨rfl, h⟩
  | missing =>
    intro db hdb
    cases hdb
    exact ⟨rfl, ⟨Nat.zero_le _, nofun⟩⟩
  | @unread _ e h =>
    cases e with
    | enoent => exact absurd rfl h
    | _ => exact fun db hdb => (nomatch hdb)

theorem wp_writeLoop_phase {db : List Entry} {done bytes : List Char} {fuel : Nat} (hfuel : bytes.length ≤ fuel) :
    wp (phaseWorld env fs₀) (writeLoop (tmpName repoInstalled) fuel bytes).prog
      (fun r g' => r = .ok () ∧ g' = .writing db (done ++ bytes) ∨ (∃ e, r = .error e) ∧ g' = .lost)
        (.writing db done) := by
  induction fuel generalizing done bytes with
  | zero =>
    rw [eq_nil_of_length_eq_zero (Nat.le_zero.mp hfuel), append_nil]
    exact .inl ⟨rfl, rfl⟩
  | succ fuel ih =>
    rw [writeLoop]
    split_ifs with hnil
    · rw [hnil, append_nil]
      exact .inl ⟨rfl, rfl⟩
    refine wp_bind_fallible (wp_perform (.inr (.inr (.inr (.inl ⟨bytes, hnil, rfl⟩)))) fun r g' hm => ?_)
    cases hm with
    | aside h _ => exact absurd rfl (h.1 _ mem_cons_self).2.1
    | @write _ _ taken rest htaken =>
      have hlen : rest.length ≤ fuel := by
        have hpos := length_pos_of_ne_nil htaken
        rw [length_append] at hfuel
        omega
      refine wp_mono (ih hlen) fun r g' h => ?_
      rw [append_assoc] at h
      exact h
    | unwritten => exact .inr ⟨⟨_, rfl⟩, rfl⟩

theorem aside_close (f : CStr) : Aside (.close f) := ⟨nofun, nofun⟩

theorem wp_removeFile_phase (hg : g.inside = true) :
    (removeFile (tmpName repoInstalled)).wp (phaseWorld env fs₀) (fun _ _ => True) g :=
  wp_bind (wp_perform (.inr (.inr (.inl ⟨rfl, hg⟩))) fun _ _ _ => trivial)

theorem wp_saveInstalled_phase {db db' : List Entry} (hdb : BoundedDb db')
    (hkeeps : ∀ n v, Listed db n v → Listed db' n v) :
    wp (phaseWorld env fs₀) (saveInstalled env db').prog
      (fun r g' => r = .ok () → g' = .saved db') (.loaded db) := by
  have hno (e : Errno) (g' : Phase) : (Except.error e : Except Errno Unit) = .ok () → g' = .saved db' := nofun
  have hclose (g : Phase) := @wp_aside env fs₀ g _ _ (Calls.perform (aside_close (tmpName repoInstalled)))
  refine wp_format_bind (hno _ _) (wp_format_bind (hno _ _) ?_)
  refine wp_bind_fallible (wp_perform (.inr (.inr (.inr rfl))) fun r g₁ hm => ?_)
  cases hm with
  | aside h _ => exact absurd rfl (h.1 _ mem_cons_self).2.1
  | uncreated => exact hno _ _
  | create =>
    refine wp_bind_fallible (wp_onError (wp_mono (wp_writeLoop_phase (Nat.le_refl _)) fun r g₂ h => ?_))
    rcases h with ⟨rfl, rfl⟩ | ⟨⟨e, rfl⟩, rfl⟩
    · refine wp_bind_fallible (wp_onError (wp_mono (hclose _) ?_))
      rintro r g₃ rfl
      cases r with
      | error e => exact wp_mono (wp_removeFile_phase rfl) fun _ _ _ => hno _ _
      | ok _ =>
        refine wp_bind_fallible (wp_onError
          (wp_perform (.inr (.inr (.inr (.inr ⟨rfl, db', hdb, rfl, hkeeps⟩)))) fun r g₄ hm => ?_))
        generalize htext : [] ++ env.cj.print (installedJson db') = text at hm
        cases hm with
        | aside h _ => exact absurd rfl (h.1 _ mem_cons_self).2.1
        | unrenamed => exact wp_mono (wp_removeFile_phase rfl) fun _ _ _ => hno _ _
        | @rename _ db'' hdb'' =>
          have hsame := (parseInstalled_print env.cj hdb).symm.trans
            ((congrArg _ htext).trans (parseInstalled_print env.cj hdb''))
          cases Except.ok.inj hsame
          exact fun _ => rfl
    · refine wp_bind (wp_mono (hclose _) ?_)
      rintro r g₃ rfl
      exact wp_mono (wp_removeFile_phase rfl) fun _ _ _ => hno _ _

theorem ownFiles_aside : ∀ f ∈ ownFiles m.name m, f ≠ repoInstalled ∧ f ≠ tmpName repoInstalled ∧ f ≠ repoIndex := by
  intro f hf
  rcases mem_ownFiles f hf with rfl | ⟨l, -, rfl⟩ | ⟨leaf, -, rfl⟩
  · exact ⟨(downloadPath_ne (by decide) _ _).symm, (downloadPath_ne (by decide) _ _).symm,
      (downloadPath_ne (by decide) _ _).symm⟩
  · exact ⟨packageFile_ne_installed _ _, packageFile_ne_installedTmp _ _, packageFile_ne_of_not_prefix _ _ (by decide)⟩
  · exact ⟨packageFile_ne_installed _ _, packageFile_ne_installedTmp _ _, packageFile_ne_of_not_prefix _ _ (by decide)⟩

theorem aside_own (c : Call) (hc : ∀ n ∈ c.names, n ∈ ownFiles m.name m) : Aside c := by
  refine ⟨fun f hf => ownFiles_aside f (hc f (c.changes_subset_names hf)), ?_⟩
  rintro rfl
  exact absurd rfl (ownFiles_aside _ (hc _ (mem_singleton_self _))).1

theorem aside_mkdir (dir : CStr) : Aside (.mkdir dir) := ⟨nofun, nofun⟩

theorem aside_read {f : CStr} (h : f ≠ repoInstalled) : Aside (.read f) :=
  ⟨nofun, fun hc => h (Call.read.inj hc)⟩

theorem permits_aside (m : Manifest) : Permits Aside m.name [] m where
  mkdir := aside_mkdir
  openSource := ⟨nofun, nofun⟩
  readSource := aside_read (by decide)
  own := aside_own

theorem permits_staging (m : Manifest) (source : CStr) :
    Permits (fun c => Aside c ∨ c = .read repoInstalled) m.name source m where
  mkdir dir := .inl (aside_mkdir dir)
  openSource := .inl ⟨nofun, nofun⟩
  readSource := by
    by_cases h : source = repoInstalled
    · exact .inr (congrArg Call.read h)
    · exact .inl (aside_read h)
  own c hc := .inl (aside_own c hc)

theorem wp_activate_phase (hg : g.ready = true) :
    wp (phaseWorld env fs₀) (activate env m.name m).prog
      (fun r g' => r = .ok () → ∃ db, g' = .saved db ∧ Listed db m.name m.version) g := by
  have hp := permits_aside m
  refine wp_bind_fallible (wp_known ?_)
  cases compatCheck env m with
  | error e => exact nofun
  | ok _ =>
  refine wp_bind_fallible (wp_mono (wp_aside (hp.txn _)) ?_)
  rintro r g₁ rfl
  cases r with
  | error e => exact nofun
  | ok _ =>
  refine wp_bind_fallible (wp_mono (wp_loadInstalled_phase hg) fun r g₂ hload => ?_)
  cases r with
  | error e => exact nofun
  | ok db =>
  obtain ⟨rfl, hdb⟩ := hload db rfl
  refine wp_bind_fallible (wp_known ?_)
  cases hupdate : updateInstalled db m with
  | error e => exact nofun
  | ok db' =>
  obtain ⟨hupdated, hbounded⟩ := updateInstalled_spec hupdate
  have hpointers : Calls Aside (writePointers env db' m).prog :=
    calls_writePointers (hp.pair (by simp [ownFiles]) (by simp [ownFiles]))
      (hp.pair (by simp [ownFiles]) (by simp [ownFiles])) db'
  refine wp_bind_fallible (wp_mono (wp_aside hpointers) ?_)
  rintro r g₃ rfl
  cases r with
  | error e => exact nofun
  | ok _ =>
  refine wp_bind_fallible (wp_mono (wp_saveInstalled_phase (hbounded hdb) hupdated.keeps) fun r g₄ hsaved => ?_)
  cases r with
  | error e => exact nofun
  | ok _ =>
  refine wp_mono (wp_aside (hp.txn _)) ?_
  rintro r g₅ rfl
  exact fun _ => ⟨db', hsaved rfl, hupdated.listed⟩

theorem wp_installLocked_phase (hsized : Sized m) (source : CStr) (hg : g.ready = true) :
    (installLocked env m.name source (lockPath m.name) m).wp (phaseWorld env fs₀)
      (fun b g' => b = true → ∃ db, g' = .saved db ∧ Listed db m.name m.version) g := by
  have hp := permits_aside m
  have htmp : (downloadPath m.name m.version).take (env.pathMax - 1) = downloadPath m.name m.version :=
    take_of_length_le (Nat.le_sub_one_of_lt (length_downloadPath hsized))
  have hown : downloadPath m.name m.version ∈ ownFiles m.name m := by simp [ownFiles]
  rw [installLocked, htmp]
  refine wp_bind (wp_mono (wp_aside (hp.txn _)) ?_)
  rintro r g₁ rfl
  cases r with
  | error e => exact wp_bind (wp_mono (wp_aside (hp.finish (.inl rfl) _)) fun _ _ _ hb => absurd hb Bool.false_ne_true)
  | ok _ =>
  refine wp_bind (wp_format_bind_ok (length_downloadPath hsized) (wp_bind_fallible
    (wp_mono (wp_ready (permits_staging m source).stage hg) fun r g₂ hready => ?_)))
  cases r with
  | error e => exact wp_bind (wp_mono (wp_aside (hp.finish (.inr hown) _)) fun _ _ _ hb => absurd hb Bool.false_ne_true)
  | ok _ =>
  refine wp_mono (wp_activate_phase hready) fun r g₃ hactivated => ?_
  cases r with
  | error e => exact wp_bind (wp_mono (wp_aside (hp.finish (.inr hown) _)) fun _ _ _ hb => absurd hb Bool.false_ne_true)
  | ok _ =>
  refine wp_bind (wp_mono (wp_aside (hp.finish (.inr hown) _)) ?_)
  rintro _ g₄ rfl
  exact fun _ => hactivated rfl

/-- A run that returns success has saved a database with its package. -/
theorem wp_pkgInstall_phase :
    (pkgInstall env name).wp (phaseWorld env fs₀)
      (fun b g' => b = true → ∃ m db, g' = .saved db ∧ Selects env fs₀ name m ∧ Listed db name m.version) .outside := by
  have hindex : Aside (.read repoIndex) := aside_read (by decide)
  refine wp_pkgInstall_selects
    (fun dir => ⟨.inl (aside_mkdir dir), fun _ _ hm => (Moves.of_aside hm (aside_mkdir dir)).1⟩)
    ⟨.inl hindex, fun _ _ hm => (Moves.of_aside hm hindex).imp_right fun h => h rfl⟩ nofun ?_
  rintro m source hsized rfl hselects
  have hlock : Aside (.createExcl (lockPath m.name)) := aside_own _ fun n hn => by
    rw [mem_singleton.mp hn]
    exact mem_cons_self
  have hacquire : Calls Aside (acquireLock env m.name).prog := calls_acquireLock aside_mkdir hlock
  refine wp_bind (wp_mono (wp_returns (wp_aside hacquire) (returns_acquireLock _)) ?_)
  rintro r g₃ ⟨rfl, hr⟩
  cases r with
  | error e => exact nofun
  | ok lock =>
    rw [hr lock rfl]
    refine wp_mono (wp_installLocked_phase hsized source rfl) fun b g₄ h hb => ?_
    obtain ⟨db, hsaved, hlisted⟩ := h hb
    exact ⟨m, db, hsaved, hselects, hlisted⟩

/-! ## The phases and the store -/

/-- What the database and the phases of all runs say of the store. -/
structure Linked (env : Env) (fs₀ fs : FileStore) (db : List Entry) (phase : Nat → Phase) : Prop where
  index : fs repoIndex = fs₀ repoIndex
  bounded : BoundedDb db
  loads : Loads env fs db
  base : ∀ t x, (phase t).base = some x → x = db
  saves : ∀ t x, phase t = .saved x → ∀ n v, Listed x n v → Listed db n v
  tmp : ∀ t x done, phase t = .writing x done → fs (tmpName repoInstalled) = some done
  alone : ∀ t u, (phase t).inside = true → (phase u).inside = true → t = u

section

variable {phase : Nat → Phase} {t : Nat} {o : Outcome} {db db' : List Entry}

theorem Phase.inside_of_base (h : g.base = some db) : g.inside = true := by
  cases g with
  | loaded | writing => rfl
  | _ => cases h

namespace Linked

variable (h : Linked env fs₀ fs db phase)
include h

theorem others (hin : (phase t).inside = true) : ∀ u, u ≠ t → (phase u).inside = false :=
  fun u hu => Bool.eq_false_iff.mpr fun hc => hu (h.alone u t hc hin)

/-- A run that is alone at the database moves on. -/
theorem set (hothers : ∀ u, u ≠ t → (phase u).inside = false)
    (hindex : fs' repoIndex = fs repoIndex) (hdb' : BoundedDb db') (hloads : Loads env fs' db')
    (hkeeps : ∀ n v, Listed db n v → Listed db' n v) (hbase : ∀ x, g'.base = some x → x = db')
    (hsaved : ∀ x, g' = .saved x → x = db')
    (htmp : ∀ x done, g' = .writing x done → fs' (tmpName repoInstalled) = some done) :
    Linked env fs₀ fs' db' (Function.update phase t g') := by
  -- the phase is the new one, or that of another run, which is not inside
  have hcases {P : Phase → Prop} (u : Nat) (hP : P (Function.update phase t g' u)) :
      u = t ∧ P g' ∨ (phase u).inside = false ∧ P (phase u) := by
    by_cases hut : u = t
    · subst hut
      rw [Function.update_self] at hP
      exact .inl ⟨rfl, hP⟩
    · rw [Function.update_of_ne hut] at hP
      exact .inr ⟨hothers u hut, hP⟩
  refine ⟨hindex.trans h.index, hdb', hloads, fun u x hx => ?_, fun u x hx => ?_, fun u x done hu => ?_,
    fun u v hu hv => ?_⟩
  · rcases hcases (P := fun g => g.base = some x) u hx with ⟨-, hx⟩ | ⟨hout, hx⟩
    · exact hbase x hx
    · exact (nomatch hout.symm.trans (Phase.inside_of_base hx))
  · rcases hcases (P := fun g => g = .saved x) u hx with ⟨-, hx⟩ | ⟨-, hx⟩
    · rw [hsaved x hx]
      exact fun _ _ => id
    · exact fun n v hl => hkeeps n v (h.saves u x hx n v hl)
  · rcases hcases (P := fun g => g = .writing x done) u hu with ⟨-, hx⟩ | ⟨hout, hx⟩
    · exact htmp x done hx
    · rw [hx] at hout
      exact (nomatch hout)
  · rcases hcases (P := fun g => g.inside = true) u hu with ⟨hut, -⟩ | ⟨hout, hin⟩
    · rcases hcases (P := fun g => g.inside = true) v hv with ⟨hvt, -⟩ | ⟨hout, hin⟩
      · exact hut.trans hvt.symm
      · exact (nomatch hout.symm.trans hin)
    · exact (nomatch hout.symm.trans hin)

theorem keep (hothers : ∀ u, u ≠ t → (phase u).inside = false)
    (hsame : ∀ f, f ≠ tmpName repoInstalled → fs' f = fs f) (hbase : ∀ x, g'.base = some x → x = db)
    (hsaved : ∀ x, g' ≠ .saved x) (htmp : ∀ x done, g' = .writing x done → fs' (tmpName repoInstalled) = some done) :
    Linked env fs₀ fs' db (Function.update phase t g') := by
  refine h.set hothers (hsame _ (by decide)) h.bounded ?_ (fun _ _ => id) hbase (fun x hx => absurd hx (hsaved x)) htmp
  rw [Loads, hsame _ (by decide)]
  exact h.loads

theorem lose (hothers : ∀ u, u ≠ t → (phase u).inside = false)
    (hsame : ∀ f, f ≠ tmpName repoInstalled → fs' f = fs f) : Linked env fs₀ fs' db (Function.update phase t .lost) :=
  h.keep hothers hsame nofun nofun nofun

theorem leave (t : Nat) : Linked env fs₀ fs db (Function.update phase t .outside) := by
  have hkeep {u : Nat} {P : Phase → Prop} (hP : P (Function.update phase t .outside u)) (hno : ¬ P .outside) :
      P (phase u) := by
    by_cases hut : u = t
    · subst hut
      rw [Function.update_self] at hP
      exact absurd hP hno
    · rwa [Function.update_of_ne hut] at hP
  refine ⟨h.index, h.bounded, h.loads, fun u x hx => ?_, fun u x hx => ?_, fun u x done hu => ?_, fun u v hu hv => ?_⟩
  · exact h.base u x (hkeep (P := fun g => g.base = some x) hx nofun)
  · exact h.saves u x (hkeep (P := fun g => g = .saved x) hx nofun)
  · exact h.tmp u x done (hkeep (P := fun g => g = .writing x done) hu nofun)
  · exact h.alone u v (hkeep (P := fun g => g.inside = true) hu nofun)
      (hkeep (P := fun g => g.inside = true) hv nofun)

end Linked

/-- The phase of a run follows what its call does to the store. -/
def Follows (env : Env) (fs₀ fs' : FileStore) (phase : Nat → Phase) (t : Nat) (c : Call) (r : Reply) : Prop :=
  ∃ g' db', Moves env fs₀ (phase t) c r g' ∧ Linked env fs₀ fs' db' (Function.update phase t g') ∧
    (g'.inside = true → c = .read repoInstalled ∨
      (phase t).inside = true ∧ ¬ (c = .rename (tmpName repoInstalled) repoInstalled ∧ r = .ok []))

namespace Linked

variable (h : Linked env fs₀ fs db phase)
include h

theorem exec_aside (hc : Aside c) (hexec : c.exec fs o = (r, fs')) :
    Follows env fs₀ fs' phase t c r := by
  have hframe {f : CStr} (hf : f = repoInstalled ∨ f = tmpName repoInstalled ∨ f = repoIndex) : fs' f = fs f := by
    refine Call.exec_frame (fun hmem => ?_) hexec
    obtain ⟨hdb, htmp, hindex⟩ := hc.1 f hmem
    exact hf.elim hdb (·.elim htmp hindex)
  refine ⟨phase t, db, .aside hc fun hindex text hr => ?_, ?_, fun hin => .inr ⟨hin, fun hren => ?_⟩⟩
  · subst hindex
    subst hr
    obtain ⟨-, ⟨text', htext, hfile⟩ | ⟨⟨e, he, -⟩, -⟩⟩ := Call.exec_read hexec
    · cases htext
      exact h.index ▸ hfile
    · cases he
  · rw [Function.update_eq_self]
    refine { h with
      index := (hframe (.inr (.inr rfl))).trans h.index
      loads := ?_
      tmp := fun t x done ht => (hframe (.inr (.inl rfl))).trans (h.tmp t x done ht) }
    rw [Loads, hframe (.inl rfl)]
    exact h.loads
  · rw [hren.1] at hc
    exact absurd rfl (hc.1 _ mem_cons_self).2.1

theorem exec_read (hothers : ∀ u, u ≠ t → (phase u).inside = false)
    (hexec : (Call.read repoInstalled).exec fs o = (r, fs')) : Follows env fs₀ fs' phase t (.read repoInstalled) r := by
  obtain ⟨rfl, hreply⟩ := Call.exec_read hexec
  have hloaded : Linked env fs₀ fs' db (Function.update phase t (.loaded db)) :=
    h.keep hothers (fun _ _ => rfl) (fun x hx => (Option.some.inj hx).symm) (fun x hx => (nomatch hx))
      fun x done hx => (nomatch hx)
  rcases hreply with ⟨text, rfl, htext⟩ | ⟨⟨e, rfl, hnone⟩, -⟩
  · rcases h.loads with ⟨hmissing, -⟩ | hfile
    · exact (nomatch htext.symm.trans hmissing)
    · cases Option.some.inj (htext.symm.trans hfile)
      exact ⟨.loaded db, db, .load h.bounded, hloaded, fun _ => .inl rfl⟩
  by_cases he : e = .enoent
  · subst he
    rcases h.loads with ⟨-, rfl⟩ | hfile
    · exact ⟨.loaded [], [], .missing, hloaded, fun _ => .inl rfl⟩
    · exact (nomatch hfile.symm.trans (hnone rfl))
  · exact ⟨.lost, db, .unread he, h.lose hothers fun _ _ => rfl, fun _ => .inl rfl⟩

theorem exec_unlink (hin : (phase t).inside = true)
    (hexec : (Call.unlink (tmpName repoInstalled)).exec fs o = (r, fs')) :
    Follows env fs₀ fs' phase t (.unlink (tmpName repoInstalled)) r := by
  refine ⟨.lost, db, .unlink, h.lose (h.others hin) fun f hf => Call.exec_frame ?_ hexec,
    fun _ => .inr ⟨hin, fun hc => (nomatch hc.1)⟩⟩
  exact fun hc => hf (mem_singleton.mp hc)

theorem exec_create {x : List Entry} (hphase : phase t = .loaded x)
    (hexec : (Call.create (tmpName repoInstalled)).exec fs o = (r, fs')) :
    Follows env fs₀ fs' phase t (.create (tmpName repoInstalled)) r := by
  have hx : x = db := h.base t x (by rw [hphase]; rfl)
  have hin : (phase t).inside = true := by rw [hphase]; rfl
  have hstay (g' : Phase) : g'.inside = true → (Call.create (tmpName repoInstalled)) = .read repoInstalled ∨
      (phase t).inside = true ∧ ¬ ((Call.create (tmpName repoInstalled)) =
        .rename (tmpName repoInstalled) repoInstalled ∧
        r = .ok []) := fun _ => .inr ⟨hin, fun hc => (nomatch hc.1)⟩
  rcases Call.exec_create hexec with ⟨rfl, rfl⟩ | ⟨⟨e, rfl⟩, rfl, -⟩
  · refine ⟨.writing x [], db, hphase ▸ .create, h.keep (h.others hin) (fun f hf => FileOp.apply_create_of_ne hf) ?_
      (fun y hy => (nomatch hy)) ?_, hstay _⟩
    · exact fun y hy => (Option.some.inj hy).symm.trans hx
    rintro y done hy
    cases hy
    exact FileOp.apply_create_self
  · exact ⟨.lost, db, .uncreated, h.lose (h.others hin) fun _ _ => rfl, hstay _⟩

theorem exec_write {x : List Entry} {done bytes : List Char}
    (hphase : phase t = .writing x done) (hne : bytes ≠ [])
    (hexec : (Call.write (tmpName repoInstalled) bytes).exec fs o = (r, fs')) :
    Follows env fs₀ fs' phase t (.write (tmpName repoInstalled) bytes) r := by
  have hx : x = db := h.base t x (by rw [hphase]; rfl)
  have hin : (phase t).inside = true := by rw [hphase]; rfl
  rcases Call.exec_write hne hexec with ⟨taken, rest, htaken, rfl, rfl, rfl⟩ | ⟨⟨e, rfl⟩, rfl, -⟩
  · refine ⟨.writing x (done ++ taken), db, hphase ▸ .write htaken, h.keep (h.others hin) (fun f hf => ?_) ?_
      (fun y hy => (nomatch hy)) ?_, fun _ => .inr ⟨hin, fun hc => (nomatch hc.1)⟩⟩
    · exact FileOp.apply_frame fun hc => hf (mem_singleton.mp hc)
    · exact fun y hy => (Option.some.inj hy).symm.trans hx
    rintro y done' hy
    cases hy
    exact FileOp.apply_append_self (h.tmp t x done hphase)
  · exact ⟨.lost, db, .unwritten, h.lose (h.others hin) fun _ _ => rfl, fun _ => .inr ⟨hin, fun hc => (nomatch hc.1)⟩⟩

theorem exec_rename {x : List Entry} {done : List Char}
    (hphase : phase t = .writing x done) (hpublish : Publishable env x done)
    (hexec : (Call.rename (tmpName repoInstalled) repoInstalled).exec fs o = (r, fs')) :
    Follows env fs₀ fs' phase t (.rename (tmpName repoInstalled) repoInstalled) r := by
  obtain ⟨db', hdb', rfl, hkeeps⟩ := hpublish
  have hx : x = db := h.base t x (by rw [hphase]; rfl)
  have hin : (phase t).inside = true := by rw [hphase]; rfl
  rcases Call.exec_rename hexec with ⟨rfl, rfl⟩ | ⟨⟨e, rfl⟩, rfl, -⟩
  · refine ⟨.saved db', db', hphase ▸ .rename hdb', h.set (h.others hin) (FileOp.apply_frame (by decide)) hdb' (.inr ?_)
      (hx ▸ hkeeps) (fun y hy => (nomatch hy)) (fun y hy => (Phase.saved.inj hy).symm) fun y done' hy => (nomatch hy),
      nofun⟩
    exact FileOp.apply_rename_dst.trans (h.tmp t x _ hphase)
  · exact ⟨.lost, db, .unrenamed, h.lose (h.others hin) fun _ _ => rfl, fun _ => .inr ⟨hin, fun hc => (nomatch hc.2)⟩⟩

theorem exec (hallowed : Permitted env (phase t) c) (hexec : c.exec fs o = (r, fs'))
    (hread : c = .read repoInstalled → ∀ u, u ≠ t → (phase u).inside = false) : Follows env fs₀ fs' phase t c r := by
  rcases hallowed with hc | ⟨rfl, -⟩ | ⟨rfl, hin⟩ | hrest
  · exact h.exec_aside hc hexec
  · exact h.exec_read (hread rfl) hexec
  · exact h.exec_unlink hin hexec
  split at hrest
  · rename_i x hphase
    subst hrest
    exact h.exec_create hphase hexec
  · rename_i x done hphase
    rcases hrest with ⟨bytes, hne, rfl⟩ | ⟨rfl, hpublish⟩
    · exact h.exec_write hphase hne hexec
    · exact h.exec_rename hphase hpublish hexec
  · exact hrest.elim

end Linked

end

/-! ## Whole runs -/

/-- What a run has done when it returns. -/
def Delivers (env : Env) (fs₀ : FileStore) (name : CStr) (b : Bool) (g : Phase) : Prop :=
  b = true → ∃ m db, g = .saved db ∧ Selects env fs₀ name m ∧ Listed db name m.version

/-- The invariant of installations in parallel. -/
def Orderly (env : Env) (fs₀ : FileStore) (names : Nat → CStr) (s : System FileStore Runner) : Prop :=
  ∃ db phase, Linked env fs₀ s.shared db phase ∧ ∀ t,
    (s.threads t).prog.wp (phaseWorld env fs₀) (Delivers env fs₀ (names t)) (phase t) ∧
    ((phase t).inside = true → (s.threads t).inDb = true)

theorem Orderly.start {db : List Entry} (hdb : BoundedDb db) (hloads : Loads env fs db) (names : Nat → CStr) :
    Orderly env fs names (parallelStart env fs names) :=
  ⟨db, fun _ => .outside, ⟨rfl, hdb, hloads, nofun, nofun,
    nofun, nofun⟩, fun _ => ⟨wp_pkgInstall_phase, nofun⟩⟩

/-- A run that returns outside of the database may be taken to be outside. -/
theorem Delivers.outside {b : Bool} (h : Delivers env fs₀ name b g) (hin : g.inside = true) :
    Delivers env fs₀ name b .outside := fun hb => by
  obtain ⟨m, db, rfl, -⟩ := h hb
  cases hin

theorem inDbAfter_of_stay {inDb : Bool} {rest : Prog Bool} (hrest : rest.value = none)
    (h : c = .read repoInstalled ∨
      inDb = true ∧ ¬ (c = .rename (tmpName repoInstalled) repoInstalled ∧ r = .ok [])) :
    inDbAfter inDb c r rest = true := by
  rw [inDbAfter, hrest, if_neg (by decide)]
  split_ifs with hread hrename
  · rfl
  · exact absurd hrename ((h.resolve_left hread).2)
  · exact (h.resolve_left hread).1

theorem Orderly.step {names : Nat → CStr} {s : System FileStore Runner} {l : Nat × Outcome}
    (h : Orderly env fs₀ names s)
    (hexclusive : Exclusive s l) : Orderly env fs₀ names (parallelStep s l) := by
  obtain ⟨t, o⟩ := l
  obtain ⟨db, phase, hlinked, hruns⟩ := h
  obtain ⟨hwp, hin⟩ := hruns t
  cases hprog : (s.threads t).prog with
  | ret b =>
    have hsame : parallelStep s (t, o) = s := by
      rw [parallelStep, System.step, Runner.next_ret hprog, Function.update_eq_self]
    rw [hsame]
    exact ⟨db, phase, hlinked, hruns⟩
  | call c k =>
    rw [hprog] at hwp
    obtain ⟨hallowed, hnext⟩ := hwp
    have hreads (hc : c = .read repoInstalled) : ReadsInstalled s t := by
      rw [ReadsInstalled, hprog, nextCall, hc]
    have hread (hc : c = .read repoInstalled) (u : Nat) (hu : u ≠ t) : (phase u).inside = false :=
      Bool.eq_false_iff.mpr fun hinside =>
        (nomatch ((hruns u).2 hinside).symm.trans (hexclusive (hreads hc) u hu))
    obtain ⟨r, fs', hexec⟩ : ∃ r fs', c.exec s.shared o = (r, fs') := ⟨_, _, rfl⟩
    have hshared : (parallelStep s (t, o)).shared = fs' := by
      rw [parallelStep, System.step_shared, Runner.next_call hprog hexec]
    have hself : (parallelStep s (t, o)).threads t = ⟨k r, inDbAfter (s.threads t).inDb c r (k r)⟩ := by
      rw [parallelStep, System.step_self, Runner.next_call hprog hexec]
    -- the other runs are where they were
    have hassemble {g : Phase} {db : List Entry} (hlinked : Linked env fs₀ fs' db (Function.update phase t g))
        (hwp : (k r).wp (phaseWorld env fs₀) (Delivers env fs₀ (names t)) g)
        (hin : g.inside = true → inDbAfter (s.threads t).inDb c r (k r) = true) :
        Orderly env fs₀ names (parallelStep s (t, o)) := by
      refine ⟨db, Function.update phase t g, hshared ▸ hlinked, fun u => ?_⟩
      by_cases hu : u = t
      · subst hu
        rw [hself, Function.update_self]
        exact ⟨hwp, hin⟩
      · rw [parallelStep, System.step_other hu, Function.update_of_ne hu]
        exact hruns u
    obtain ⟨g', db', hmoves, hlinked', hstay⟩ := hlinked.exec hallowed hexec hread
    have hwp' := hnext r g' hmoves
    cases hrest : (k r).value with
    | none =>
      refine hassemble hlinked' hwp' fun hinside => inDbAfter_of_stay hrest ((hstay hinside).imp_right ?_)
      exact And.imp_left hin
    | some b =>
      by_cases hinside : g'.inside = true
      · have hleave := hlinked'.leave t
        rw [Function.update_idem] at hleave
        rw [eq_ret_of_value hrest] at hwp'
        refine hassemble hleave ?_ nofun
        rw [eq_ret_of_value hrest]
        exact Delivers.outside hwp' hinside
      · exact hassemble hlinked' hwp' fun hc => absurd hc hinside

/-- If a run reads the database only while no other run is at it, every package whose run has
returned success is listed with its version, and every read finds a whole database or no file. -/
theorem pkgInstall_listed (env : Env) (fs : FileStore) (names : Nat → CStr)
    (hstart : ∃ db, BoundedDb db ∧ Loads env fs db) (ls : List (Nat × Outcome))
    (hls : Transition.Meets parallelStep Exclusive (parallelStart env fs names) ls) :
    (∀ t, ((Transition.run parallelStep (parallelStart env fs names) ls).threads t).prog.value = some true →
      ∃ m db, Selects env fs (names t) m ∧
        Loads env (Transition.run parallelStep (parallelStart env fs names) ls).shared db ∧
          Listed db (names t) m.version) ∧
    Transition.Meets parallelStep
      (fun s l => ReadsInstalled s l.1 → ∃ db, BoundedDb db ∧ Loads env s.shared db)
        (parallelStart env fs names) ls := by
  obtain ⟨db, hdb, hloads⟩ := hstart
  have hinit := Orderly.start hdb hloads names
  refine ⟨fun t hvalue => ?_, Transition.meets_induct (fun s l hs hl => ⟨hs.step hl, fun _ => ?_⟩) hinit hls⟩
  · obtain ⟨db', phase, hlinked, hruns⟩ := Transition.run_induct (fun s l hs hl => Orderly.step hs hl) hinit hls
    have hwp := (hruns t).1
    rw [eq_ret_of_value hvalue] at hwp
    obtain ⟨m, x, hphase, hselects, hlisted⟩ := hwp rfl
    exact ⟨m, db', hselects, hlinked.loads, hlinked.saves t x hphase _ _ hlisted⟩
  · obtain ⟨db', phase, hlinked, -⟩ := hs
    exact ⟨db', hlinked.bounded, hlinked.loads⟩

/-- A run that goes on alone has the database for itself. -/
theorem exclusive_alone {s : System FileStore Runner} {t : Nat} (h : ∀ u, u ≠ t → (s.threads u).inDb = false)
    (n : Nat) :
    Transition.Meets parallelStep Exclusive s (replicate n (t, .ok)) ∧
      ∀ u, u ≠ t →
        (Transition.run parallelStep s (replicate n (t, .ok))).threads u = s.threads u := by
  induction n generalizing s with
  | zero => exact ⟨trivial, fun _ _ => rfl⟩
  | succ n ih =>
    have hother (u : Nat) (hu : u ≠ t) : (parallelStep s (t, .ok)).threads u = s.threads u := System.step_other hu
    obtain ⟨hmeets, hrun⟩ := @ih (parallelStep s (t, .ok)) fun u hu => (hother u hu) ▸ h u hu
    exact ⟨⟨fun _ => h, hmeets⟩, fun u hu => (hrun u hu).trans (hother u hu)⟩

/-- A store with an index of two packages. -/
def sampleStoreOfTwo : FileStore := fun f =>
  if f = repoIndex then
    some (JsonText.reference.print (.arr [manifestJson (sampleManifest "1.0"),
      manifestJson { sampleManifest "1.0" with name := "lib".toList }]))
  else sampleStore (sampleManifest "1.0") f

def sampleNames (t : Nat) : CStr := if t = 0 then "app".toList else "lib".toList

def sampleParallel (ls : List (Nat × Outcome)) : System FileStore Runner :=
  Transition.run parallelStep (parallelStart sampleEnv sampleStoreOfTwo sampleNames) ls

/-- Two packages are installed one after the other. -/
theorem pkgInstall_listed_both :
    let s := sampleParallel (replicate 90 (0, .ok) ++ replicate 90 (1, .ok))
    (s.threads 0).prog.value = some true ∧ (s.threads 1).prog.value = some true ∧
      (∃ m db, Selects sampleEnv sampleStoreOfTwo "app".toList m ∧ Loads sampleEnv s.shared db ∧
        Listed db "app".toList m.version) ∧
      ∃ m db, Selects sampleEnv sampleStoreOfTwo "lib".toList m ∧ Loads sampleEnv s.shared db ∧
        Listed db "lib".toList m.version := by
  obtain ⟨hended, h0, h1⟩ : ((sampleParallel (replicate 90 (0, .ok))).threads 0).inDb = false ∧
      ((sampleParallel (replicate 90 (0, .ok) ++ replicate 90 (1, .ok))).threads 0).prog.value = some true ∧
      ((sampleParallel (replicate 90 (0, .ok) ++ replicate 90 (1, .ok))).threads 1).prog.value = some true := by
    decide +kernel
  have hidle : ∀ u, u ≠ 0 → ((parallelStart sampleEnv sampleStoreOfTwo sampleNames).threads u).inDb = false :=
    fun _ _ => rfl
  obtain ⟨hfirst, hothers⟩ := exclusive_alone hidle 90
  have hsecond : ∀ u, u ≠ 1 → ((sampleParallel (replicate 90 (0, .ok))).threads u).inDb = false := by
    intro u _
    by_cases hu : u = 0
    · subst hu
      exact hended
    · rw [sampleParallel, hothers u hu]
      rfl
  have hlisted := (pkgInstall_listed sampleEnv sampleStoreOfTwo sampleNames
    ⟨[], ⟨Nat.zero_le _, nofun⟩, .inl ⟨by decide, rfl⟩⟩ _
    (hfirst.append (exclusive_alone hsecond 90).1)).1
  exact ⟨h0, h1, hlisted 0 h0, hlisted 1 h1⟩

/-- The second package is installed while the first one is between its read of the database and its
rename. Both return success, and the database has the first one only. -/
theorem not_pkgInstall_listed :
    let s := sampleParallel (replicate 63 (0, .ok) ++ replicate 90 (1, .ok) ++ replicate 30 (0, .ok))
    (s.threads 0).prog.value = some true ∧ (s.threads 1).prog.value = some true ∧
      s.shared repoInstalled = some (sampleEnv.cj.print (installedJson
        [⟨"app".toList, "1.0".toList, [], "arm".toList, "board".toList, ["1.0".toList], .elf⟩])) := by
  decide +kernel

end System.Nxpkg
