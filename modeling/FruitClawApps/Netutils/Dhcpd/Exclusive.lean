-- SUMMARY: An acknowledged address goes to no other client in time, and is what was asked for.
import FruitClawApps.Netutils.Dhcpd.Server

/-!
# Leases

An acknowledgement is a promise about one entry. The entry keeps it as long as it has the address of
the client and expires no earlier than promised. Only messages of the same client can shorten its
time: a repeated `DHCPDISCOVER` does, since the entry then counts as an offer.
-/

namespace Netutils.Dhcpd

open Bytes Transition List

/-- The hardware address of the client. -/
def Event.client (e : Event) : List UInt8 := e.message.mac

/-- The address that is offered or acknowledged. -/
def Answer.address : Answer → Option Nat
  | .offer ipaddr _ => some ipaddr
  | .ack ipaddr _ => some ipaddr
  | .nak => none

/-- The table behind some messages. -/
def tableAfter (c : Config) (es : List Event) : Table c := run (Mealy.next receive) (fun _ => Lease.zero) es

/-- The client gives its address back. -/
def Event.GivesBack (e : Event) : Prop := e.message.opts.msgtype = dhcpDecline ∨ e.message.opts.msgtype = dhcpRelease

/-- A message of the client does not make a lease that is promised until some time end earlier. -/
def Keeps {c : Config} (client : List UInt8) (til : Nat) (t : Table c) (e : Event) : Prop :=
  e.client = client → e.now < til →
    (e.message.opts.msgtype = dhcpDiscover → til ≤ e.now + c.offertime) ∧
    (e.message.opts.msgtype = dhcpRequest → e.ok = true →
      ∀ l, findbymac t e.client = some l → requestHeld c e.message l = true →
        til ≤ e.now + (verifyreqleasetime c e.message.opts).getD c.leasetime)

variable {c : Config} {t t' : Table c} {l l' : Fin c.maxleases} {now til : Nat} {client : List UInt8} {m : Message}
  {ok : Bool}

/-! ## Addresses and entries -/

theorem leaseipaddr_pos : 0 < leaseipaddr c l := Nat.add_pos_right _ c.startip_pos

theorem leaseipaddr_lt : leaseipaddr c l < 2 ^ 32 := by
  have := c.pool
  rw [leaseipaddr]
  omega

theorem leaseipaddr_inj : leaseipaddr c l = leaseipaddr c l' ↔ l = l' := by
  simp only [leaseipaddr]
  omega

theorem leaseipaddr_mem : c.startip ≤ leaseipaddr c l ∧ leaseipaddr c l ≤ c.endip := by
  rw [leaseipaddr, Config.endip]
  omega

theorem exists_leaseipaddr {ipaddr : Nat} (h : c.startip ≤ ipaddr ∧ ipaddr ≤ c.endip) :
    ∃ l, leaseipaddr c l = ipaddr := by
  have := c.maxleases_pos
  rw [Config.endip] at h
  refine ⟨⟨ipaddr - c.startip, by omega⟩, ?_⟩
  simp only [leaseipaddr]
  omega

theorem entryOf_leaseipaddr : entryOf c (leaseipaddr c l) = some l := by
  have hmax := c.maxleases_lt
  have hdiff : (leaseipaddr c l : Int) - c.startip = l := by
    rw [leaseipaddr]
    omega
  have hndx : Int.bmod ((leaseipaddr c l : Int) - c.startip) (2 ^ 32) = l := by
    rw [hdiff, Int.bmod_def]
    omega
  simp only [entryOf, hndx]
  rw [dif_pos (by omega)]
  rfl

theorem setlease_leaseipaddr {expiry : Nat} :
    setlease c now t client (leaseipaddr c l) expiry = some (Function.update t l ⟨client, true, now + expiry⟩) := by
  rw [setlease, entryOf_leaseipaddr]
  rfl

theorem mac_of_findbymac (h : findbymac t client = some l) : (t l).mac = client := by
  simpa using find?_some h

theorem findbyipaddr_leaseipaddr : findbyipaddr c t (leaseipaddr c l) = if (t l).allocated then some l else none := by
  have hl : leaseipaddr c l - c.startip = l := Nat.add_sub_cancel _ _
  rw [findbyipaddr, dif_pos leaseipaddr_mem]
  simp only [hl]

/-! ## The entry of a promise -/

/-- The entry belongs to the client, at least until the given time. -/
structure Held (t : Table c) (l : Fin c.maxleases) (client : List UInt8) (til : Nat) : Prop where
  owner : (t l).mac = client
  allocated : (t l).allocated = true
  expiry : til ≤ (t l).expiry

theorem Held.update_ne (h : Held t l client til) (hl : l' ≠ l) (lease : Lease) :
    Held (Function.update t l' lease) l client til := by
  have heq : Function.update t l' lease l = t l := Function.update_of_ne hl.symm _ _
  exact ⟨heq ▸ h.owner, heq ▸ h.allocated, heq ▸ h.expiry⟩

theorem held_update_self {expiry : Nat} (h : til ≤ expiry) :
    Held (Function.update t l ⟨client, true, expiry⟩) l client til :=
  ⟨by rw [Function.update_self], by rw [Function.update_self], by rw [Function.update_self]; exact h⟩

section

variable (h : Held t l client til)
include h

theorem Held.leaseexpired (hnow : now < til) (l' : Fin c.maxleases) :
    Held (leaseexpired now t l').2 l client til ∧ ((leaseexpired now t l').1 = true → l' ≠ l) := by
  rw [Dhcpd.leaseexpired]
  split
  · exact ⟨h, fun hno => by cases hno⟩
  rename_i hexpired
  have hne : l' ≠ l := by
    rintro rfl
    exact hexpired (Nat.lt_of_lt_of_le hnow h.expiry)
  exact ⟨h.update_ne hne _, fun _ => hne⟩

theorem Held.isFree (hnow : now < til) (l' : Fin c.maxleases) :
    Held (isFree c now t (leaseipaddr c l')).2 l client til ∧
      ((isFree c now t (leaseipaddr c l')).1 = true → l' ≠ l) := by
  rw [Dhcpd.isFree, findbyipaddr_leaseipaddr]
  by_cases hl : (t l').allocated = true
  · rw [if_pos hl]
    exact h.leaseexpired hnow l'
  rw [if_neg hl]
  refine ⟨h, ?_⟩
  rintro - rfl
  exact hl h.allocated

theorem Held.allocFrom (hnow : now < til) (rest : List (Fin c.maxleases)) :
    Held (allocFrom c now t rest).2 l client til ∧
      ((allocFrom c now t rest).1 = 0 ∨ ∃ l' ≠ l, (allocFrom c now t rest).1 = leaseipaddr c l') := by
  induction rest generalizing t with
  | nil => exact ⟨h, .inl rfl⟩
  | cons l' rest ih =>
    obtain ⟨hheld, hne⟩ := h.isFree hnow l'
    simp only [Dhcpd.allocFrom]
    split
    · exact ih h
    split
    · rename_i t' hfree
      rw [hfree] at hheld hne
      exact ⟨hheld.update_ne (hne rfl) _, .inr ⟨l', hne rfl, rfl⟩⟩
    rename_i t' hfree
    rw [hfree] at hheld
    exact ih hheld

theorem Held.verifyreqip (hnow : now < til) (reqip : Nat) :
    Held (verifyreqip c now t reqip).2 l client til ∧
      ((verifyreqip c now t reqip).1 = true → ∃ l' ≠ l, reqip = leaseipaddr c l') := by
  rw [Dhcpd.verifyreqip]
  split
  · rename_i hpool
    obtain ⟨l', rfl⟩ := exists_leaseipaddr hpool
    obtain ⟨hheld, hne⟩ := h.isFree hnow l'
    exact ⟨hheld, fun hfree => ⟨l', hne hfree, rfl⟩⟩
  · exact ⟨h, fun hno => by cases hno⟩

/-- The address that is offered has another entry, unless the client is the one of the promise. -/
theorem Held.discoverAddress (hnow : now < til) (m : Message) :
    Held (discoverAddress c m now t).2.2 l client til ∧
      ((discoverAddress c m now t).1 = 0 ∨
        ∃ l', (l' = l → m.mac = client) ∧ (discoverAddress c m now t).1 = leaseipaddr c l') := by
  rw [Dhcpd.discoverAddress]
  cases hfind : findbymac t m.mac with
  | some l' =>
    have hmac : l' = l → m.mac = client := by
      rintro rfl
      rw [← mac_of_findbymac hfind, h.owner]
    obtain ⟨hheld, -⟩ := h.leaseexpired hnow l'
    rcases hexpired : Dhcpd.leaseexpired now t l' with ⟨expired, t'⟩
    simp only [hexpired] at hheld ⊢
    cases expired with
    | true | false => exact ⟨hheld, .inr ⟨l', hmac, rfl⟩⟩
  | none =>
    obtain ⟨hheld, hne⟩ := h.verifyreqip hnow m.opts.reqip.toNat
    rcases hverify : Dhcpd.verifyreqip c now t m.opts.reqip.toNat with ⟨free, t'⟩
    simp only [hverify] at hheld hne ⊢
    cases free with
    | true =>
      obtain ⟨l', hl', heq⟩ := hne rfl
      exact ⟨hheld, .inr ⟨l', fun heq' => absurd heq' hl', heq⟩⟩
    | false =>
      obtain ⟨halloc, hzero | ⟨l', hl', heq⟩⟩ := hheld.allocFrom hnow (List.finRange c.maxleases)
      · exact ⟨halloc, .inl hzero⟩
      · exact ⟨halloc, .inr ⟨l', fun heq' => absurd heq' hl', heq⟩⟩

end

/-! ## One message -/

/-- Setting a lease of a client keeps the promise if it is for another entry, or for the same client
and long enough. -/
theorem Held.set (h : Held t l client til) {mac : List UInt8} {expiry : Nat}
    (hself : l' = l → mac = client ∧ til ≤ now + expiry) :
    Held (Function.update t l' ⟨mac, true, now + expiry⟩) l client til := by
  by_cases hl : l' = l
  · obtain ⟨rfl, hle⟩ := hself hl
    subst hl
    exact held_update_self hle
  · exact h.update_ne hl _

theorem Held.discover (h : Held t l client til) (hnow : now < til)
    (hkeeps : m.mac = client → til ≤ now + c.offertime) :
    Held (discover c m now t).2 l client til ∧
      (m.mac ≠ client → ∀ s ∈ (discover c m now t).1, s.answer.address ≠ some (leaseipaddr c l)) := by
  obtain ⟨hheld, haddress⟩ := h.discoverAddress hnow m
  rw [Dhcpd.discover]
  rcases hr : Dhcpd.discoverAddress c m now t with ⟨ipaddr, leasetime, t'⟩
  simp only [hr] at hheld haddress ⊢
  split
  · exact ⟨hheld, fun _ s hs => by cases hs⟩
  rename_i hpos
  obtain ⟨l', hmac, rfl⟩ := haddress.resolve_left hpos
  rw [setlease_leaseipaddr]
  refine ⟨hheld.set fun hl => ⟨hmac hl, hkeeps (hmac hl)⟩, ?_⟩
  intro hother s hs heq
  cases Option.mem_some.mp hs
  exact hother (hmac (leaseipaddr_inj.mp (Option.some.inj heq)))

/-- A request is acknowledged only for the entry of the client, or one that is not allocated. -/
theorem request_cases (m : Message) (now : Nat) (ok : Bool) (t : Table c) :
    (∃ l, (findbymac t m.mac = some l ∧ requestHeld c m l = true ∨
        m.opts.serverip = 0 ∧ m.opts.reqip.toNat = leaseipaddr c l ∧ (t l).allocated = false) ∧
      request c m now ok t = sendack c m now ok t (leaseipaddr c l)) ∨
    (∃ l, findbyipaddr c t m.opts.reqip.toNat = some l ∧ request c m now ok t = (none, (leaseexpired now t l).2)) ∨
    request c m now ok t = (some (sendnak c m), t) ∨ request c m now ok t = (none, t) := by
  rw [request]
  cases hfind : findbymac t m.mac with
  | some l =>
    by_cases hheld : requestHeld c m l = true
    · exact .inl ⟨l, .inl ⟨rfl, hheld⟩, if_pos hheld⟩
    · exact .inr (.inr (.inl (if_neg hheld)))
  | none =>
    by_cases hasks : m.opts.reqip ≠ 0 ∧ m.opts.serverip = 0
    · simp only [if_pos hasks]
      cases hip : findbyipaddr c t m.opts.reqip.toNat with
      | some l =>
        rcases hexpired : leaseexpired now t l with ⟨expired, t'⟩
        cases expired with
        | true => exact .inr (.inl ⟨l, rfl, by simp only [hexpired]⟩)
        | false =>
          have ht : t' = t := by
            rw [leaseexpired] at hexpired
            split at hexpired <;> cases hexpired
            rfl
          exact .inr (.inr (.inl (by simp only [hexpired, ht])))
      | none =>
        by_cases hpool : c.startip ≤ m.opts.reqip.toNat ∧ m.opts.reqip.toNat ≤ c.endip
        · obtain ⟨l, hl⟩ := exists_leaseipaddr hpool
          have hfree : (t l).allocated = false := by
            rw [← hl, findbyipaddr_leaseipaddr] at hip
            simpa using hip
          exact .inl ⟨l, .inr ⟨hasks.2, hl.symm, hfree⟩, by rw [if_pos hpool, hl]⟩
        · exact .inr (.inr (.inl (if_neg hpool)))
    · exact .inr (.inr (.inr (if_neg hasks)))

theorem sendack_eq (m : Message) (now : Nat) (ok : Bool) (t : Table c) (l : Fin c.maxleases) :
    sendack c m now ok t (leaseipaddr c l) =
      (some (ackpacket c m (leaseipaddr c l) ((verifyreqleasetime c m.opts).getD c.leasetime)),
        if ok then Function.update t l ⟨m.mac, true, now + (verifyreqleasetime c m.opts).getD c.leasetime⟩
        else t) := by
  rw [sendack, setlease_leaseipaddr]
  rfl

theorem Held.request (h : Held t l client til) (hnow : now < til)
    (hkeeps : m.mac = client → ok = true → ∀ l, findbymac t m.mac = some l → requestHeld c m l = true →
      til ≤ now + (verifyreqleasetime c m.opts).getD c.leasetime) :
    Held (request c m now ok t).2 l client til ∧
      (m.mac ≠ client → ∀ s ∈ (request c m now ok t).1, s.answer.address ≠ some (leaseipaddr c l)) := by
  rcases request_cases m now ok t with ⟨l', hwhy, heq⟩ | ⟨l', -, heq⟩ | heq | heq
  · rw [heq, sendack_eq]
    have hentry : l' = l → findbymac t m.mac = some l' ∧ requestHeld c m l' = true := by
      rintro rfl
      refine hwhy.resolve_right fun hfree => ?_
      rw [h.allocated] at hfree
      cases hfree.2.2
    have hmac : l' = l → m.mac = client := by
      intro hl
      rw [← mac_of_findbymac (hentry hl).1, hl, h.owner]
    constructor
    · cases hok : ok with
      | true => exact h.set fun hl => ⟨hmac hl, hkeeps (hmac hl) hok l' (hentry hl).1 (hentry hl).2⟩
      | false => exact h
    intro hother s hs haddress
    cases Option.mem_some.mp hs
    exact hother (hmac (leaseipaddr_inj.mp (Option.some.inj haddress)))
  · rw [heq]
    exact ⟨(h.leaseexpired hnow l').1, fun _ s hs => by cases hs⟩
  · rw [heq]
    refine ⟨h, ?_⟩
    intro _ s hs haddress
    cases Option.mem_some.mp hs
    cases haddress
  · rw [heq]
    exact ⟨h, fun _ s hs => by cases hs⟩

theorem Held.findbymac_ne (h : Held t l client til) (hother : m.mac ≠ client)
    (hfind : findbymac t m.mac = some l') : l' ≠ l := by
  rintro rfl
  exact hother (by rw [← mac_of_findbymac hfind, h.owner])

/-- One message keeps the promise, and its address goes to no other client. -/
theorem Held.receive {e : Event} (h : Held t l client til) (hnow : e.now < til)
    (hback : e.client = client → ¬ e.GivesBack) (hkeeps : Keeps client til t e) :
    Held (receive t e).2 l client til ∧
      (e.client ≠ client → ∀ s ∈ (receive t e).1, s.answer.address ≠ some (leaseipaddr c l)) := by
  -- what is sent was made, so a statement about what is made suffices
  suffices hmade : Held (process e.message e.now e.ok t).2 l client til ∧
      (e.client ≠ client → ∀ s ∈ (process e.message e.now e.ok t).1, s.answer.address ≠ some (leaseipaddr c l)) by
    refine ⟨hmade.1, fun hother s hs => hmade.2 hother s ?_⟩
    rw [Dhcpd.receive] at hs
    split at hs
    · exact hs
    · cases hs
  have hquiet : ∀ t' : Table c, Held t' l client til → Held ((none, t') : Option Sent × Table c).2 l client til ∧
      (e.client ≠ client → ∀ s ∈ ((none, t') : Option Sent × Table c).1, s.answer.address ≠ some (leaseipaddr c l)) :=
    fun t' h => ⟨h, fun _ s hs => by cases hs⟩
  rw [process]
  split
  · rename_i htype
    exact h.discover hnow fun hclient => (hkeeps hclient hnow).1 htype
  split
  · rename_i htype
    exact h.request hnow fun hclient => (hkeeps hclient hnow).2 htype
  split
  · rename_i htype
    refine hquiet _ ?_
    have hother : e.client ≠ client := fun hclient => hback hclient (.inl htype)
    rw [decline]
    split
    · rename_i l' hfind
      exact h.update_ne (h.findbymac_ne hother hfind) _
    · exact h
  split
  · rename_i htype
    refine hquiet _ ?_
    have hother : e.client ≠ client := fun hclient => hback hclient (.inr htype)
    rw [release]
    split
    · rename_i l' hfind
      exact h.update_ne (h.findbymac_ne hother hfind) _
    · exact h
  · exact hquiet _ h

/-! ## Acknowledgements -/

theorem leasetime_pos (opts : Options) : 0 < (verifyreqleasetime c opts).getD c.leasetime := by
  have hleasetime := c.leasetime_pos
  have hmax := c.maxleasetime_pos
  simp only [verifyreqleasetime]
  split_ifs <;> simp only [Option.getD_none, Option.getD_some] <;> omega

@[simp] theorem yiaddr_addoption (out : Outpacket) (option : List UInt8) :
    (out.addoption option).yiaddr = out.yiaddr := by
  rw [Outpacket.addoption]
  split <;> rfl

@[simp] theorem yiaddr_addconfigured (out : Outpacket) (code : UInt8) (value : Nat) :
    (out.addconfigured code value).yiaddr = out.yiaddr := by
  rw [Outpacket.addconfigured]
  split
  · rfl
  · exact yiaddr_addoption _ _

theorem yiaddr_addlease (out : Outpacket) (leasetime : Nat) : (addlease c out leasetime).yiaddr = out.yiaddr := by
  simp [addlease, Outpacket.addoption32]

/-- An acknowledgement is sent by `dhcpd_request`, for an address of the pool that the client has an
entry for or that is not allocated. -/
theorem receive_ack {e : Event} {s : Sent} {ipaddr leasetime : Nat} (hs : (receive t e).1 = some s)
    (hack : s.answer = .ack ipaddr leasetime) :
    ∃ l, leaseipaddr c l = ipaddr ∧ s.out.yiaddr = be32 ipaddr ∧ 0 < leasetime ∧
      (findbymac t e.client = some l ∧ requestHeld c e.message l = true ∨
        e.message.opts.serverip = 0 ∧ e.message.opts.reqip.toNat = ipaddr) ∧
      (receive t e).2 = Function.update t l ⟨e.client, true, e.now + leasetime⟩ := by
  have hok : e.ok = true := by
    by_contra hno
    rw [receive, if_neg hno] at hs
    cases hs
  have hmade : (process e.message e.now e.ok t).1 = some s := by
    rw [receive, if_pos hok] at hs
    exact hs
  -- no other message type makes an acknowledgement
  have hdiscover : e.message.opts.msgtype ≠ dhcpDiscover := by
    intro htype
    rw [process, if_pos htype, discover] at hmade
    split at hmade
    split at hmade
    · cases hmade
    split at hmade
    · cases hmade
    · cases hmade
      cases hack
  have hrequest : e.message.opts.msgtype = dhcpRequest := by
    by_contra htype
    rw [process, if_neg hdiscover, if_neg htype] at hmade
    split at hmade
    · cases hmade
    · split at hmade <;> cases hmade
  have hprocess : process e.message e.now e.ok t = request c e.message e.now e.ok t := by
    rw [process, if_neg hdiscover, if_pos hrequest]
  rw [hprocess] at hmade
  rcases request_cases e.message e.now e.ok t with ⟨l, hwhy, heq⟩ | ⟨l, -, heq⟩ | heq | heq
  · rw [heq, sendack_eq] at hmade
    cases hmade
    cases hack
    refine ⟨l, rfl, yiaddr_addlease _ _, leasetime_pos _, ?_, ?_⟩
    · rcases hwhy with hwhy | ⟨hserver, hreqip, -⟩
      · exact .inl hwhy
      · exact .inr ⟨hserver, hreqip⟩
    · rw [receive, hprocess, heq, sendack_eq]
      exact if_pos hok
  · rw [heq] at hmade
    cases hmade
  · rw [heq] at hmade
    cases hmade
    cases hack
  · rw [heq] at hmade
    cases hmade

/-! ## The server as it is configured by default -/

/-- The default configuration. -/
def defaults : Config where
  startip := 0x0a000002
  maxleases := 6
  leasetime := 864000
  minleasetime := 86400
  maxleasetime := 2592000
  offertime := 3600
  declinetime := 3600
  serverip := 0x0a000001
  netmask := 0xffffff00
  routerip := 0x0a000001
  dnsip := 0x08080808
  ignorebroadcast := true
  startip_pos := by decide
  maxleases_pos := by decide
  maxleases_lt := by decide
  pool := by decide
  leasetime_pos := by decide
  maxleasetime_pos := by decide

/-- The header of the client whose hardware address ends in `n`. -/
private def headerOf (n : UInt8) : Header where
  htype := 1
  hlen := 6
  xid := [0, 0, 0, n]
  flags := [0, 0]
  ciaddr := [0, 0, 0, 0]
  chaddr := [2, 0, 0, 0, 0, n] ++ replicate 10 0

/-- A `DHCPDISCOVER` that asks for an address. -/
private def discoverAt (now : Nat) (n : UInt8) (reqip : UInt32) : Event :=
  ⟨⟨headerOf n, { msgtype := dhcpDiscover, reqip := reqip }⟩, now, true⟩

/-- A `DHCPREQUEST` that asks this server for an address. -/
private def requestAt (now : Nat) (n : UInt8) (reqip : UInt32) : Event :=
  ⟨⟨headerOf n, { msgtype := dhcpRequest, reqip := reqip, serverip := 0x0a000001 }⟩, now, true⟩

/-! ## Whole runs -/

theorem Held.run {es : List Event} (h : Held t l client til) (hnow : ∀ e ∈ es, e.now < til)
    (hback : ∀ e ∈ es, e.client = client → ¬ e.GivesBack)
    (hkeeps : Meets (Mealy.next Dhcpd.receive) (Keeps client til) t es) :
    Held (run (Mealy.next Dhcpd.receive) t es) l client til := by
  have hlabels : Meets (Mealy.next Dhcpd.receive) (fun _ e => e.now < til ∧ (e.client = client → ¬ e.GivesBack)) t es :=
    Meets.of_labels fun e he => ⟨hnow e he, hback e he⟩
  refine run_induct (I := fun t => Held t l client til) ?_ h (hlabels.and hkeeps)
  intro t e h hstep
  exact (h.receive hstep.1.1 hstep.1.2 hstep.2).1

/-- An address that was acknowledged for some time is offered or acknowledged to no other client
before the time has elapsed, unless the first client gives it back, or asks for it again in a way
that makes the lease shorter: with a `DHCPDISCOVER`, or for a time that ends earlier. -/
theorem leases_exclusive (c : Config) (pre mid : List Event) (i j : Event) (ipaddr leasetime : Nat)
    (hclock : (pre ++ i :: mid ++ [j]).Pairwise fun e e' => e.now ≤ e'.now)
    (hack : (receive (tableAfter c pre) i).1.map Sent.answer = some (.ack ipaddr leasetime))
    (hback : ∀ e ∈ mid, e.client = i.client → ¬ e.GivesBack)
    (hkeeps : Meets (Mealy.next receive) (Keeps i.client (i.now + leasetime)) (tableAfter c (pre ++ [i])) mid)
    (hother : j.client ≠ i.client)
    (hgiven : (receive (tableAfter c (pre ++ i :: mid)) j).1.bind (Answer.address ∘ Sent.answer) = some ipaddr) :
    i.now + leasetime ≤ j.now := by
  by_contra hearly
  have hj : j.now < i.now + leasetime := Nat.lt_of_not_le hearly
  have hmid : ∀ e ∈ mid, e.now ≤ j.now := by
    intro e he
    exact (pairwise_append.mp hclock).2.2 e (by simp [he]) j mem_cons_self
  obtain ⟨s, hs, hanswer⟩ := Option.map_eq_some_iff.mp hack
  obtain ⟨l, rfl, -, -, -, htable⟩ := receive_ack hs hanswer
  -- the acknowledgement has made the promise
  have hheld : Held (tableAfter c (pre ++ [i])) l i.client (i.now + leasetime) := by
    rw [tableAfter, run_append]
    change Held (receive (tableAfter c pre) i).2 l i.client (i.now + leasetime)
    rw [htable]
    exact held_update_self (Nat.le_refl _)
  have hrun := hheld.run (fun e he => Nat.lt_of_le_of_lt (hmid e he) hj) hback hkeeps
  have hafter : tableAfter c (pre ++ i :: mid) = run (Mealy.next receive) (tableAfter c (pre ++ [i])) mid := by
    rw [tableAfter, tableAfter, ← run_append, append_assoc]
    rfl
  rw [← hafter] at hrun
  obtain ⟨-, hfree⟩ := hrun.receive hj (fun heq => absurd heq hother) fun heq => absurd heq hother
  obtain ⟨s', hs', haddress⟩ := Option.bind_eq_some_iff.mp hgiven
  exact hfree hother s' hs' haddress

/-- Client 2 asks for the address of client 1 and gets another one. Client 3 asks for it when the
lease is over. -/
theorem leases_exclusive_default : (requestAt 1 1 0x0a000002).now + 864000 ≤ (discoverAt 864001 3 0x0a000002).now :=
  leases_exclusive defaults [discoverAt 0 1 0] [discoverAt 10 2 0x0a000002] (requestAt 1 1 0x0a000002)
    (discoverAt 864001 3 0x0a000002) 0x0a000002 864000 (by decide) (by decide +kernel)
    (fun e he heq => absurd heq (by rw [mem_singleton.mp he]; decide +kernel))
    ⟨fun heq => absurd heq (by decide +kernel), trivial⟩ (by decide +kernel) (by decide +kernel)

/-- A client with a lease repeats its `DHCPDISCOVER`. An hour later its address is offered to
another client. -/
theorem not_leases_exclusive :
    ¬ ∀ (c : Config) (pre mid : List Event) (i j : Event) (ipaddr leasetime : Nat),
      (pre ++ i :: mid ++ [j]).Pairwise (fun e e' => e.now ≤ e'.now) →
      (∀ e ∈ pre ++ i :: mid ++ [j], e.client ≠ zeroMac) →
      (receive (tableAfter c pre) i).1.map Sent.answer = some (.ack ipaddr leasetime) →
      (∀ e ∈ mid, e.client = i.client → ¬ e.GivesBack) →
      j.client ≠ i.client →
      (receive (tableAfter c (pre ++ i :: mid)) j).1.bind (Answer.address ∘ Sent.answer) = some ipaddr →
      i.now + leasetime ≤ j.now := by
  intro h
  have hgone := h defaults [discoverAt 0 1 0] [discoverAt 10 1 0] (requestAt 1 1 0x0a000002)
    (discoverAt 3610 2 0x0a000002) 0x0a000002 864000 (by decide) (by decide +kernel) (by decide +kernel)
    (fun e he _ hback => absurd hback (by rw [mem_singleton.mp he, Event.GivesBack]; decide +kernel))
    (by decide +kernel) (by decide +kernel)
  exact absurd hgone (by decide)

/-! ## What is acknowledged -/

/-- The address that the client names: the one it requests, and otherwise its own. -/
def Message.named (m : Message) : Nat := if m.opts.reqip ≠ 0 then m.opts.reqip.toNat else beNat (m.header.ciaddr)

/-- An entry that is confirmed is the named one, unless the client asks this server for another
one. -/
theorem named_of_requestHeld {m : Message} {l : Fin c.maxleases} (h : requestHeld c m l = true) :
    m.named = leaseipaddr c l ↔ m.opts.serverip = 0 ∨ m.opts.reqip.toNat = leaseipaddr c l := by
  have hpos : leaseipaddr c l ≠ 0 := Nat.ne_of_gt leaseipaddr_pos
  simp only [requestHeld] at h
  split at h
  · rename_i hserver
    simp only [decide_eq_true_eq] at h
    have hreqip : m.opts.reqip ≠ 0 := by
      rcases h.2 with hne | heq
      · exact hne
      intro hzero
      rw [hzero] at heq
      exact hpos heq.symm
    rw [Message.named, if_pos hreqip, or_iff_right hserver]
  · rename_i hserver
    refine iff_of_true ?_ (.inl (not_not.mp hserver))
    split at h
    · rename_i hreqip
      rw [Message.named, if_pos hreqip]
      exact (of_decide_eq_true h).symm
    · rename_i hreqip
      rw [Message.named, if_neg hreqip, ← of_decide_eq_true h, beNat_be32 leaseipaddr_lt]

/-- An acknowledgement carries an address of the pool, and then the client has an entry for it that
has not expired. The address is the one the client has named, unless the client asks this server for
another address than that of the entry it had. -/
theorem acks_named (c : Config) (es : List Event) (e : Event) (s : Sent) (ipaddr leasetime : Nat)
    (hs : (receive (tableAfter c es) e).1 = some s) (hack : s.answer = .ack ipaddr leasetime) :
    s.out.yiaddr = be32 ipaddr ∧ (c.startip ≤ ipaddr ∧ ipaddr ≤ c.endip) ∧
    (∃ l, leaseipaddr c l = ipaddr ∧ (tableAfter c (es ++ [e]) l).mac = e.client ∧
      (tableAfter c (es ++ [e]) l).allocated = true ∧ e.now < (tableAfter c (es ++ [e]) l).expiry) ∧
    (ipaddr = e.message.named ↔ e.message.opts.serverip = 0 ∨
      ∃ l, findbymac (tableAfter c es) e.client = some l ∧ e.message.opts.reqip.toNat = leaseipaddr c l) := by
  obtain ⟨l, rfl, hyiaddr, hpos, hwhy, htable⟩ := receive_ack hs hack
  have hafter : tableAfter c (es ++ [e]) l = ⟨e.client, true, e.now + leasetime⟩ := by
    rw [tableAfter, run_append]
    change (receive (tableAfter c es) e).2 l = _
    rw [htable, Function.update_self]
  refine ⟨hyiaddr, leaseipaddr_mem, ⟨l, rfl, ?_⟩, ?_⟩
  · rw [hafter]
    exact ⟨rfl, rfl, Nat.lt_add_of_pos_right hpos⟩
  rw [eq_comm]
  rcases hwhy with ⟨hfind, hheld⟩ | ⟨hserver, hreqip⟩
  · rw [named_of_requestHeld hheld, hfind]
    simp
  have hne : e.message.opts.reqip ≠ 0 := by
    intro hzero
    rw [hzero] at hreqip
    exact Nat.ne_of_gt leaseipaddr_pos hreqip.symm
  rw [Message.named, if_pos hne, hreqip]
  exact iff_of_true rfl (.inl hserver)

theorem acks_named_default : 0x0a000002 = (requestAt 1 1 0x0a000002).message.named := by
  have hack : (receive (tableAfter defaults [discoverAt 0 1 0]) (requestAt 1 1 0x0a000002)).1.map Sent.answer =
      some (.ack 0x0a000002 864000) := by decide +kernel
  obtain ⟨s, hs, hanswer⟩ := Option.map_eq_some_iff.mp hack
  exact (acks_named defaults [discoverAt 0 1 0] _ s _ _ hs hanswer).2.2.2.mpr (.inr ⟨⟨0, by decide⟩, by decide +kernel⟩)

/-- A client that was offered one address asks for another one. The first one is acknowledged. -/
theorem not_acks_named :
    ¬ ∀ (c : Config) (es : List Event) (e : Event) (s : Sent) (ipaddr leasetime : Nat),
      (∀ e' ∈ es ++ [e], e'.client ≠ zeroMac) → (receive (tableAfter c es) e).1 = some s →
      s.answer = .ack ipaddr leasetime → ipaddr = e.message.named := by
  intro h
  have hack : (receive (tableAfter defaults [discoverAt 0 1 0]) (requestAt 1 1 0x0a000003)).1.map Sent.answer =
      some (.ack 0x0a000002 864000) := by decide +kernel
  obtain ⟨s, hs, hanswer⟩ := Option.map_eq_some_iff.mp hack
  have hnamed := h defaults [discoverAt 0 1 0] (requestAt 1 1 0x0a000003) s _ _ (by decide +kernel) hs hanswer
  exact absurd hnamed (by decide +kernel)

end Netutils.Dhcpd
