-- SUMMARY: Datagrams with their options inside do not depend on earlier ones.
import FruitClawApps.Netutils.Dhcpd.Exclusive

/-!
# Datagrams and the receive buffer

The options are parsed from the whole buffer, however short the datagram was. Behind it are bytes of
earlier ones. They do not count if the walk over the options comes to its end before.
-/

namespace Netutils.Dhcpd

open Bytes Transition

namespace Walk

variable {mem d rest : List UInt8} {w w' : Walk} {fuel : Nat}

/-! ## The loop ends -/

/-- How many turns the loop can take at most. -/
def bound (w : Walk) : Nat :=
  match w.currfield with
  | .options => w.remaining.toNat + fileSize + snameSize
  | .file => w.remaining.toNat + snameSize
  | .sname => w.remaining.toNat

theorem loop_eq : w.loop mem (fuel + 1) =
    match w.visit mem with
    | none => (true, w.opts)
    | some w => if 0 < w.advance.remaining then loop mem fuel w.advance else (false, w.advance.opts) := rfl

theorem take_cases {least : Nat} {read : Walk → Walk}
    (hread : ∀ w, (read w).currfield = w.currfield ∧ (read w).remaining = w.remaining ∧ (read w).optlen = w.optlen) :
    (w.take mem least read).currfield = w.currfield ∧ (w.take mem least read).remaining = w.remaining ∧
      0 < (w.take mem least read).optlen := by
  have hpos : 0 < w.length mem := Nat.succ_pos _
  simp only [take]
  split
  · obtain ⟨hfield, hremaining, hoptlen⟩ := hread { w with optlen := w.length mem }
    exact ⟨hfield, hremaining, hoptlen ▸ hpos⟩
  · exact ⟨rfl, rfl, hpos⟩

theorem visit_cases (h : w.visit mem = some w') :
    w'.currfield = w.currfield ∧ w'.remaining = w.remaining ∧ 0 < w'.optlen ∨
    w.currfield = .options ∧ w'.currfield = .file ∧ w'.remaining = fileSize ∨
    w.currfield = .file ∧ w'.currfield = .sname ∧ w'.remaining = snameSize := by
  rw [visit] at h
  split_ifs at h with hpad hover hend hfile hsname hreq hlease htype hserver <;> cases h
  · exact .inl ⟨rfl, rfl, Nat.one_pos⟩
  · exact .inl (take_cases fun _ => ⟨rfl, rfl, rfl⟩)
  · exact .inr (.inl ⟨hfile.1, rfl, rfl⟩)
  · exact .inr (.inr ⟨hsname.1, rfl, rfl⟩)
  · exact .inl (take_cases fun _ => ⟨rfl, rfl, rfl⟩)
  · exact .inl (take_cases fun _ => ⟨rfl, rfl, rfl⟩)
  · exact .inl (take_cases fun _ => ⟨rfl, rfl, rfl⟩)
  · exact .inl (take_cases fun _ => ⟨rfl, rfl, rfl⟩)
  · exact .inl ⟨rfl, rfl, Nat.succ_pos _⟩

theorem bound_advance_lt (h : w.visit mem = some w') (hremaining : 0 < w.remaining) (hleft : 0 < w'.advance.remaining) :
    w'.advance.bound < w.bound := by
  have hadvance : w'.advance.remaining = w'.remaining - w'.optlen := rfl
  have hfield : w'.advance.currfield = w'.currfield := rfl
  rcases visit_cases h with ⟨hsame, heq, hoptlen⟩ | ⟨hold, hnew, heq⟩ | ⟨hold, hnew, heq⟩
  · simp only [bound, hfield, hsame]
    cases w.currfield <;> simp only <;> omega
  all_goals
    simp only [bound, hfield, hnew, hold] at heq ⊢
    omega

theorem loop_succ (hbound : w.bound ≤ fuel) (hremaining : 0 < w.remaining) :
    w.loop mem (fuel + 1) = w.loop mem fuel := by
  induction fuel generalizing w with
  | zero =>
    simp only [bound] at hbound
    split at hbound <;> omega
  | succ fuel ih =>
    rw [loop_eq, loop_eq]
    cases hvisit : w.visit mem with
    | none => rfl
    | some w' =>
      simp only
      split
      · rename_i hleft
        have hlt := bound_advance_lt hvisit hremaining hleft
        exact ih (by omega) hleft
      · rfl

/-- The number of turns in `parseoptions` suffices. -/
theorem loop_start (mem : List UInt8) (more : Nat) :
    start.loop mem (packetSize + 1 + more) = start.loop mem (packetSize + 1) := by
  have hbound : start.bound ≤ packetSize + 1 := by decide
  induction more with
  | zero => rfl
  | succ more ih => rw [← Nat.add_assoc, loop_succ (by omega) (by decide), ih]

/-- The walk over the options ends, whatever the buffer holds. -/
theorem start_terminates (mem : List UInt8) :
    Acc (fun next w : Walk => ∃ w' ∈ w.visit mem, 0 < w'.advance.remaining ∧ next = w'.advance) start := by
  suffices h : ∀ n w, bound w = n → 0 < w.remaining → Acc _ w from h _ start rfl (by decide)
  intro n
  induction n using Nat.strong_induction_on with
  | _ n ih =>
    rintro w rfl hremaining
    refine ⟨_, ?_⟩
    rintro _ ⟨w', hvisit, hleft, rfl⟩
    exact ih _ (bound_advance_lt hvisit hremaining hleft) _ rfl hleft

/-! ## Options inside the datagram -/

/-- Every option on the walk lies in the datagram. One that reaches to the end of its field ends the
walk, and only its length is read. -/
def Inside (d : List UInt8) : Nat → Walk → Prop
  | 0, _ => True
  | fuel + 1, w =>
    w.ptr < d.length ∧
    (w.code d ≠ optPad ∧ w.code d ≠ optEnd →
      w.ptr + 1 < d.length ∧ ((w.length d : Int) < w.remaining → w.ptr + w.length d ≤ d.length)) ∧
    ∀ w' ∈ w.visit d, 0 < w'.advance.remaining → Inside d fuel w'.advance

instance Inside.decidable (d : List UInt8) : (fuel : Nat) → (w : Walk) → Decidable (Inside d fuel w)
  | 0, _ => isTrue trivial
  | fuel + 1, w =>
    haveI := Inside.decidable d fuel
    inferInstanceAs (Decidable (_ ∧ _ ∧ ∀ w' ∈ w.visit d, 0 < w'.advance.remaining → Inside d fuel w'.advance))

theorem getD_append_of_lt {i : Nat} (h : i < d.length) : (d ++ rest).getD i 0 = d.getD i 0 := by
  rw [List.getD_eq_getElem?_getD, List.getElem?_append_left h, List.getD_eq_getElem?_getD]

theorem code_append (h : w.ptr < d.length) : w.code (d ++ rest) = w.code d := getD_append_of_lt h

theorem length_append (h : w.ptr + 1 < d.length) : w.length (d ++ rest) = w.length d := by
  rw [length, length, getD_append_of_lt h]

section Take

variable (hlength : w.ptr + 1 < d.length) (hdata : (w.length d : Int) < w.remaining → w.ptr + w.length d ≤ d.length)
include hlength hdata

theorem take8_append (set : Walk → UInt8 → Walk) : w.take8 (d ++ rest) set = w.take8 d set := by
  simp only [take8, take, length_append hlength]
  split
  · simp only [data8]
    rw [getD_append_of_lt (by omega)]
  · rfl

theorem take32_append (set : Walk → UInt32 → Walk) : w.take32 (d ++ rest) set = w.take32 d set := by
  simp only [take32, take, length_append hlength]
  split
  · simp only [data32]
    rw [slice_append_of_le (by omega)]
  · rfl

end Take

/-- An option in the datagram is visited as if there were nothing behind the datagram. -/
theorem visit_append (hptr : w.ptr < d.length)
    (hoption : w.code d ≠ optPad ∧ w.code d ≠ optEnd →
      w.ptr + 1 < d.length ∧ ((w.length d : Int) < w.remaining → w.ptr + w.length d ≤ d.length)) :
    w.visit (d ++ rest) = w.visit d := by
  rw [visit, visit, code_append hptr]
  by_cases hpad : w.code d = optPad
  · rw [if_pos hpad, if_pos hpad]
  by_cases hend : w.code d = optEnd
  · have hover : w.code d ≠ optOverload := by
      rw [hend]
      decide
    rw [if_neg hpad, if_neg hpad, if_neg hover, if_neg hover, if_pos hend, if_pos hend]
  · obtain ⟨hlength, hdata⟩ := hoption ⟨hpad, hend⟩
    simp only [take8_append hlength hdata, take32_append hlength hdata, length_append hlength]

theorem loop_append (h : w.Inside d fuel) : w.loop (d ++ rest) fuel = w.loop d fuel := by
  induction fuel generalizing w with
  | zero => rfl
  | succ fuel ih =>
    obtain ⟨hptr, hoption, hnext⟩ := h
    rw [loop_eq, loop_eq, visit_append hptr hoption]
    cases hvisit : w.visit d with
    | none => rfl
    | some w' =>
      simp only
      split
      · rename_i hleft
        exact ih (hnext w' hvisit hleft)
      · rfl

end Walk

/-! ## Complete datagrams -/

/-- What is received of a datagram. -/
def received (datagram : List UInt8) : List UInt8 := datagram.take packetSize

/-- The datagram has all fields and the magic number, and if that is right all its options up to the
end. -/
def Complete (datagram : List UInt8) : Prop :=
  optionsOffset + 4 ≤ (received datagram).length ∧
    (slice (received datagram) optionsOffset 4 = magiccookie →
      Walk.start.Inside (received datagram) (packetSize + 1))

instance (datagram : List UInt8) : Decidable (Complete datagram) := inferInstanceAs (Decidable (_ ∧ (_ → _)))

variable {c : Config} {s : State c} {i : Input} {d rest : List UInt8}

/-- What is made of a packet in a part of the memory, with a lease table. -/
def respondTo (packet mem : List UInt8) (opts : Options) (t : Table c) (now : Nat) (ok : Bool) : Handled × Table c :=
  match parseoptions mem opts with
  | (false, _) => (⟨none, none⟩, t)
  | (true, opts) =>
    let r := receive t ⟨⟨Header.decode packet, opts⟩, now, ok⟩
    (⟨some opts, r.1⟩, r.2)

/-- What the server makes of a datagram alone. -/
def respond (t : Table c) (i : Input) : Handled × Table c :=
  respondTo (received i.datagram) (received i.datagram) {} t i.now i.ok

theorem handle_eq (s : State c) (now : Nat) (ok : Bool) :
    ((s.handle now ok).1, (s.handle now ok).2.leases) =
      respondTo s.inpacket (s.inpacket ++ [s.outop]) s.opts s.leases now ok := by
  rw [State.handle, respondTo]
  rcases parseoptions (s.inpacket ++ [s.outop]) s.opts with ⟨parsed, opts⟩
  cases parsed with
  | true | false => rfl

theorem decode_append (h : optionsOffset + 4 ≤ d.length) : Header.decode (d ++ rest) = Header.decode d := by
  simp only [optionsOffset] at h
  simp only [Header.decode]
  rw [Walk.getD_append_of_lt (by omega), Walk.getD_append_of_lt (by omega), slice_append_of_le (by omega),
    slice_append_of_le (by omega), slice_append_of_le (by omega), slice_append_of_le (by omega)]

theorem recv_inpacket (s : State c) (datagram : List UInt8) :
    (s.recv datagram).inpacket = received datagram ++ s.inpacket.drop (min datagram.length packetSize) := by
  rw [State.recv, received]
  simp only [overlay]
  rw [List.take_eq_take_iff.mpr]
  omega

/-- A turn with a complete datagram does what the datagram alone says. -/
theorem turn_respond (s : State c) (h : Complete i.datagram) :
    ((turn s i).1, (turn s i).2.leases) = respond s.leases i := by
  obtain ⟨hlength, hinside⟩ := h
  rw [turn, handle_eq, recv_inpacket, List.append_assoc, respond, respondTo, respondTo, parseoptions, parseoptions,
    slice_append_of_le hlength, decode_append hlength]
  by_cases hmagic : slice (received i.datagram) optionsOffset 4 = magiccookie
  · rw [if_neg (not_not.mpr hmagic), if_neg (not_not.mpr hmagic), Walk.loop_append (hinside hmagic)]
    rfl
  · rw [if_pos hmagic, if_pos hmagic]
    rfl

/-- Two histories with the same lease table: a complete datagram is handled in the same way after
both. -/
theorem datagrams_independent (c : Config) (h₁ h₂ : List Input) (i : Input) (hcomplete : Complete i.datagram)
    (hleases : (run (Mealy.next turn) (State.init c) h₁).leases = (run (Mealy.next turn) (State.init c) h₂).leases) :
    (turn (run (Mealy.next turn) (State.init c) h₁) i).1 = (turn (run (Mealy.next turn) (State.init c) h₂) i).1 ∧
    (turn (run (Mealy.next turn) (State.init c) h₁) i).2.leases =
      (turn (run (Mealy.next turn) (State.init c) h₂) i).2.leases := by
  have h := turn_respond (run (Mealy.next turn) (State.init c) h₁) hcomplete
  rw [hleases, ← turn_respond _ hcomplete] at h
  exact Prod.mk.inj h

/-- A datagram with these options, from a client without an address. -/
private def datagramOf (options : List UInt8) : List UInt8 :=
  [1, 1, 6, 0] ++ List.replicate 24 0 ++ [2, 0, 0, 0, 0, 1] ++ List.replicate 202 0 ++ magiccookie ++ options

/-- A `DHCPREQUEST` for an address that is not in the pool. -/
private def strayRequest : Input := ⟨datagramOf [53, 1, 3, 50, 4, 10, 0, 0, 200, 255], 0, true⟩

private theorem leases_strayRequest :
    (run (Mealy.next turn) (State.init defaults) [strayRequest]).leases =
      (run (Mealy.next turn) (State.init defaults) []).leases := by
  funext l
  revert l
  decide +kernel

theorem datagrams_independent_discover :
    (turn (run (Mealy.next turn) (State.init defaults) [strayRequest]) ⟨datagramOf [53, 1, 1, 255], 1, true⟩).1 =
      (turn (run (Mealy.next turn) (State.init defaults) []) ⟨datagramOf [53, 1, 1, 255], 1, true⟩).1 :=
  (datagrams_independent defaults [strayRequest] [] ⟨datagramOf [53, 1, 1, 255], 1, true⟩ (by decide +kernel)
    leases_strayRequest).1

/-- An empty datagram makes the server handle the message before it again, and refuse it again. -/
theorem not_datagrams_independent :
    ¬ ∀ (c : Config) (h₁ h₂ : List Input) (i : Input), i.datagram.length ≤ packetSize →
      (run (Mealy.next turn) (State.init c) h₁).leases = (run (Mealy.next turn) (State.init c) h₂).leases →
      (turn (run (Mealy.next turn) (State.init c) h₁) i).1 = (turn (run (Mealy.next turn) (State.init c) h₂) i).1 := by
  intro h
  have hsame := h defaults [strayRequest] [] ⟨[], 1, true⟩ (Nat.zero_le _) leases_strayRequest
  exact absurd hsame (by decide +kernel)

/-! ## Messages and datagrams -/

/-- The message in the buffer, if it can be parsed. -/
def State.event (s : State c) (now : Nat) (ok : Bool) : Option Event :=
  match parseoptions (s.inpacket ++ [s.outop]) s.opts with
  | (false, _) => none
  | (true, opts) => some ⟨⟨Header.decode s.inpacket, opts⟩, now, ok⟩

/-- The messages that the daemon handles. -/
def messages : State c → List Input → List Event
  | _, [] => []
  | s, i :: is => ((s.recv i.datagram).event i.now i.ok).toList ++ messages (turn s i).2 is

theorem leases_turn (s : State c) (i : Input) :
    (turn s i).2.leases = run (Mealy.next receive) s.leases ((s.recv i.datagram).event i.now i.ok).toList := by
  rw [turn, State.handle, State.event]
  rcases parseoptions ((s.recv i.datagram).inpacket ++ [(s.recv i.datagram).outop]) (s.recv i.datagram).opts with
    ⟨parsed, opts⟩
  cases parsed with
  | true | false => rfl

/-- The lease table of the daemon is that behind the messages it has handled. -/
theorem leases_run (c : Config) (is : List Input) :
    (run (Mealy.next turn) (State.init c) is).leases = tableAfter c (messages (State.init c) is) := by
  suffices h : ∀ s : State c,
      (run (Mealy.next turn) s is).leases = run (Mealy.next receive) s.leases (messages s is) from h (State.init c)
  induction is with
  | nil => exact fun s => rfl
  | cons i is ih =>
    intro s
    rw [messages, run_append, ← leases_turn]
    exact ih _

end Netutils.Dhcpd
