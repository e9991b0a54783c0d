-- SUMMARY: What the package store leaves in the files it writes.
import FruitClawApps.System.Nxpkg.Install

/-!
# Files that are written

`pkg_store_write_text_atomic` and `pkg_store_copy_file` either write the whole text or return an
error. After an error the first one leaves the file as it was, and the second one may have lost it.
-/

namespace System.Nxpkg

open FileProgram Prog List

/-- The store, with the outcomes that calls may have. -/
abbrev anyCall (A : Call → Outcome → Prop) : World FileStore := storeWorld (fun _ _ => True) A

/-- Some call of the kind may fail. -/
def MayFail (A : Call → Outcome → Prop) (P : Call → Prop) : Prop := ∃ c o, A c o ∧ o.failed = true ∧ P c

theorem MayFail.mono {A : Call → Outcome → Prop} {P P' : Call → Prop} (h : MayFail A P) (hP : ∀ c, P c → P' c) :
    MayFail A P' := by
  obtain ⟨c, o, hA, ho, hc⟩ := h
  exact ⟨c, o, hA, ho, hP c hc⟩

variable {env : Env} {A : Call → Outcome → Prop} {fs : FileStore}

section

variable {σ β : Type} {w : World σ} {s : σ} {path : CStr} {f : CStr → Fallible β} {Q : Except Errno β → σ → Prop}

theorem wp_format_bind (hlong : Q (.error .enametoolong) s) (h : wp w (f path).prog Q s) :
    wp w (format env path >>= f : Fallible β) Q s := by
  rw [format_bind]
  split_ifs
  · exact h
  · exact hlong

theorem wp_format_bind_ok (hlen : path.length < env.pathMax) (h : wp w (f path).prog Q s) :
    wp w (format env path >>= f : Fallible β) Q s := by
  rw [format_bind, if_pos hlen]
  exact h

end

/-- The loop writes all bytes behind what is there, if its fuel is enough. -/
theorem wp_writeLoop {name : CStr} {fuel : Nat} {bytes pre : List Char} (hfuel : bytes.length ≤ fuel)
    (hpre : fs name = some pre) :
    wp (anyCall A) (writeLoop name fuel bytes).prog
      (fun r fs' => r = .ok () ∧ fs' name = some (pre ++ bytes) ∨
        (∃ e, r = .error e) ∧ MayFail A fun c => name ∈ c.names) fs := by
  induction fuel generalizing bytes pre fs with
  | zero =>
    have hnil : bytes = [] := eq_nil_of_length_eq_zero (Nat.le_zero.mp hfuel)
    exact .inl ⟨rfl, by rw [hnil, append_nil, hpre]⟩
  | succ fuel ih =>
    rw [writeLoop]
    split_ifs with hnil
    · exact .inl ⟨rfl, by rw [hnil, append_nil, hpre]⟩
    refine wp_bind_fallible (wp_perform trivial ?_)
    rintro r fs' ⟨o, ho, hexec⟩
    rcases Call.exec_write hnil hexec with ⟨taken, rest, htaken, rfl, rfl, rfl⟩ | ⟨⟨e, rfl⟩, -, hfailed⟩
    · have hlen : rest.length ≤ fuel := by
        have hpos := length_pos_of_ne_nil htaken
        rw [length_append] at hfuel
        omega
      refine wp_mono (ih hlen (FileOp.apply_append_self hpre)) fun r fs'' h => ?_
      rw [append_assoc] at h
      exact h
    · exact .inr ⟨⟨e, rfl⟩, _, o, ho, hfailed, mem_singleton_self name⟩

theorem wp_writeAll {name : CStr} {bytes pre : List Char} (hpre : fs name = some pre) :
    wp (anyCall A) (writeAll name bytes).prog
      (fun r fs' => (r = .ok () ∧ fs' name = some (pre ++ bytes) ∨
        (∃ e, r = .error e) ∧ MayFail A fun c => name ∈ c.names) ∧ ∀ f, ¬ f = name → fs' f = fs f) fs :=
  wp_and (wp_writeLoop (Nat.le_refl _) hpre)
    (wp_frame (calls_writeAll (fun _ _ hf => mem_singleton.mp hf) bytes))

theorem wp_removeFile {path : CStr} :
    (removeFile path).wp (anyCall A) (fun _ fs' => ∀ f, ¬ f = path → fs' f = fs f) fs :=
  wp_frame (calls_removeFile fun _ hf => mem_singleton.mp hf)

theorem wp_closeAndRemove {path : CStr} :
    (closeAndRemove path).wp (anyCall A) (fun _ fs' => ∀ f, ¬ f = path → fs' f = fs f) fs :=
  wp_frame (calls_closeAndRemove nofun fun _ hf => mem_singleton.mp hf)

theorem wp_removeFile_gone {path : CStr} :
    (removeFile path).wp (anyCall A) (fun _ fs' => (fs' path = none ∨ MayFail A fun c => path ∈ c.names) ∧
      ∀ f, ¬ f = path → fs' f = fs f) fs := by
  refine wp_and (wp_bind (wp_perform trivial ?_)) wp_removeFile
  rintro r fs' ⟨o, ho, hexec⟩
  rcases Call.exec_unlink hexec with rfl | ⟨rfl, hfailed | hnone⟩
  · exact .inl FileOp.apply_unlink_self
  · exact .inr ⟨_, o, ho, hfailed, mem_singleton_self path⟩
  · exact .inl hnone

/-! ## Writing a text -/

theorem tmpName_ne (path : CStr) : path ≠ tmpName path := fun h => by
  have hlen := congrArg List.length h
  rw [tmpName, length_append] at hlen
  have hext : ".tmp".toList.length = 4 := rfl
  omega

/-- What `pkg_store_write_text_atomic` leaves. -/
structure Written (A : Call → Outcome → Prop) (path text : CStr) (fs : FileStore) (r : Except Errno Unit)
    (fs' : FileStore) : Prop where
  frame : ∀ f, f ≠ path → f ≠ tmpName path → fs' f = fs f
  result : r = .ok () ∧ fs' path = some text ∨
    (∃ e, r = .error e) ∧ fs' path = fs path ∧ MayFail A fun c => tmpName path ∈ c.names

theorem wp_writeTextAtomic {path text : CStr} (hlen : (tmpName path).length < env.pathMax) :
    wp (anyCall A) (writeTextAtomic env path text).prog (Written A path text fs) fs := by
  have hframe : wp (anyCall A) (writeTextAtomic env path text).prog
      (fun _ fs' => ∀ f, ¬ (f = tmpName path ∨ f = path) → fs' f = fs f) fs :=
    wp_frame (calls_writeTextAtomic (fun c hc f hf => hc f (c.changes_subset_names hf)) text)
  suffices hresult : wp (anyCall A) (writeTextAtomic env path text).prog
      (fun r fs' => r = .ok () ∧ fs' path = some text ∨
        (∃ e, r = .error e) ∧ fs' path = fs path ∧ MayFail A fun c => tmpName path ∈ c.names) fs from
    wp_mono (wp_and hframe hresult) fun r fs' h => ⟨fun f hpath htmp => h.1 f fun hc => hc.elim htmp hpath, h.2⟩
  have hpath : ¬ path = tmpName path := tmpName_ne path
  rw [writeTextAtomic, format_bind, if_pos hlen]
  refine wp_bind_fallible (wp_perform trivial ?_)
  rintro r fs₁ ⟨o, ho, hexec⟩
  rcases Call.exec_create hexec with ⟨rfl, rfl⟩ | ⟨⟨e, rfl⟩, rfl, hfailed⟩
  · -- from here on the file itself is touched by the rename only
    have hkept : FileOp.apply fs (.create (tmpName path)) path = fs path := FileOp.apply_create_of_ne hpath
    refine wp_bind_fallible (wp_onError (wp_mono (wp_writeAll FileOp.apply_create_self) ?_))
    rintro r fs₂ ⟨⟨rfl, htext⟩ | ⟨⟨e, rfl⟩, hfail⟩, hrest⟩
    · refine wp_bind_fallible (wp_onError (wp_perform trivial ?_))
      rintro r fs₃ ⟨o, ho, hexec⟩
      obtain ⟨rfl, hclose⟩ := Call.exec_close hexec
      cases r with
      | ok _ =>
        refine wp_bind_fallible (wp_onError (wp_perform trivial ?_))
        rintro r fs₄ ⟨o, ho, hexec⟩
        rcases Call.exec_rename hexec with ⟨rfl, rfl⟩ | ⟨⟨e, rfl⟩, rfl, hfailed⟩
        · exact .inl ⟨rfl, FileOp.apply_rename_dst.trans htext⟩
        have hfailed := hfailed.resolve_right fun hnone => (nomatch htext.symm.trans hnone)
        exact wp_mono wp_removeFile fun _ fs₅ h =>
          .inr ⟨⟨e, rfl⟩, (h path hpath).trans ((hrest path hpath).trans hkept),
          _, o, ho, hfailed, mem_cons_self⟩
      | error e =>
        exact wp_mono wp_removeFile fun _ fs₄ h =>
          .inr ⟨⟨e, rfl⟩, (h path hpath).trans ((hrest path hpath).trans hkept),
          _, o, ho, hclose e rfl, mem_cons_self⟩
    · exact wp_mono wp_closeAndRemove fun _ fs₃ h =>
        .inr ⟨⟨e, rfl⟩, (h path hpath).trans ((hrest path hpath).trans hkept), hfail⟩
  · exact .inr ⟨⟨e, rfl⟩, rfl, _, o, ho, hfailed, mem_cons_self⟩

/-! ## Copying a file -/

/-- What `pkg_store_copy_file` leaves. -/
structure Copied (A : Call → Outcome → Prop) (src dest : CStr) (fs : FileStore) (r : Except Errno Unit)
    (fs' : FileStore) : Prop where
  frame : ∀ f, f ≠ dest → fs' f = fs f
  result : (r = .ok () ∧ ∃ text, fs src = some text ∧ fs' dest = some text) ∨
    (∃ e, r = .error e) ∧ (fs' dest = fs dest ∨ MayFail A fun c => c = .read src ∨ dest ∈ c.names)

theorem wp_copyFile {src dest : CStr} (hne : src ≠ dest) :
    wp (anyCall A) (copyFile src dest).prog (Copied A src dest fs) fs := by
  have hframe : wp (anyCall A) (copyFile src dest).prog
      (fun _ fs' => ∀ f, ¬ f = dest → fs' f = fs f) fs :=
    wp_frame (calls_copyFile nofun nofun
      fun c hc f hf => hc f (c.changes_subset_names hf))
  suffices hresult : wp (anyCall A) (copyFile src dest).prog
      (fun r fs' => (r = .ok () ∧ ∃ text, fs src = some text ∧ fs' dest = some text) ∨
        (∃ e, r = .error e) ∧ (fs' dest = fs dest ∨ MayFail A fun c => c = .read src ∨ dest ∈ c.names)) fs from
    wp_mono (wp_and hframe hresult) fun r fs' h => ⟨h.1, h.2⟩
  refine wp_bind_fallible (wp_perform trivial ?_)
  rintro r fs₁ ⟨o, ho, hexec⟩
  obtain ⟨rfl, hopen⟩ := Call.exec_openRead hexec
  cases r with
  | error e => exact .inr ⟨⟨e, rfl⟩, .inl rfl⟩
  | ok _ =>
    have hsome := hopen _ rfl
    refine wp_bind_fallible (wp_perform trivial ?_)
    rintro r fs₂ ⟨o, ho, hexec⟩
    rcases Call.exec_create hexec with ⟨rfl, rfl⟩ | ⟨⟨e, rfl⟩, rfl, hfailed⟩
    · refine wp_bind_fallible (wp_onError (wp_bind_fallible (wp_perform trivial ?_)))
      rintro r fs₃ ⟨o, ho, hexec⟩
      obtain ⟨rfl, ⟨text, rfl, htext⟩ | ⟨⟨e, rfl, -⟩, hfailed⟩⟩ := Call.exec_read hexec
      · have hsrc : fs₁ src = some text := (FileOp.apply_create_of_ne hne).symm.trans htext
        refine wp_mono (wp_writeAll FileOp.apply_create_self) ?_
        rintro r fs₄ ⟨⟨rfl, hdest⟩ | ⟨⟨e, rfl⟩, hfail⟩, -⟩
        · refine wp_bind_fallible (wp_onError (wp_perform trivial ?_))
          rintro r fs₅ ⟨o, ho, hexec⟩
          obtain ⟨rfl, hclose⟩ := Call.exec_close hexec
          cases r with
          | ok _ => exact .inl ⟨rfl, text, hsrc, hdest⟩
          | error e =>
            exact wp_mono wp_removeFile fun _ fs₆ _ =>
              .inr ⟨⟨e, rfl⟩, .inr ⟨_, o, ho, hclose e rfl, .inr mem_cons_self⟩⟩
        · exact wp_mono wp_closeAndRemove fun _ fs₅ _ => .inr ⟨⟨e, rfl⟩, .inr (hfail.mono fun c hc => .inr hc)⟩
      · have hfailed := hfailed.resolve_right fun hnone => by
          rw [FileOp.apply_create_of_ne hne] at hnone
          rw [hnone] at hsome
          cases hsome
        exact wp_mono wp_closeAndRemove fun _ fs₄ _ => .inr ⟨⟨e, rfl⟩, .inr ⟨_, o, ho, hfailed, .inl rfl⟩⟩
    · exact .inr ⟨⟨e, rfl⟩, .inl rfl⟩

end System.Nxpkg
