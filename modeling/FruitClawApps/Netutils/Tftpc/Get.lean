-- SUMMARY: TFTP downloads: exact up to 2 ^ 16 blocks, and stuck after a lost acknowledgement.
import FruitClawApps.Lib.Transition
import Mathlib.Algebra.Order.Ring.Star
import Mathlib.Data.Nat.Cast.Order.Ring

/-!
# TFTP downloads

A step goes up to the next packet of the server: some calls of `recvfrom` that time out, and the one
that returns the packet. The server sends its block until an acknowledgement of it arrives, but the
client acknowledges a block only once.
-/

namespace Netutils.Tftpc

open Transition List

/-! ## The client -/

def tftpDatasize : Nat := 512

def tftpIobufsize : Nat := 524

structure Sockaddr where
  addr : Nat
  port : Nat

/-- The packets of the client. An error has its code. -/
inductive Sent where
  | rrq
  | ack (blockno : Nat)
  | err (code : Nat)

/-- The variables of `tftpget_cb`, the data that the callback has got, and whether the result is
`OK`. -/
structure Get where
  blockno : Nat
  retry : Nat
  port : Nat
  written : List UInt8
  result : Option Bool

/-- The opcode, and the block number of a data packet. -/
def tftpParsedatapacket (packet : List UInt8) : Nat × Option Nat :=
  let word (i : Nat) := 256 * (packet.getD i 0).toNat + (packet.getD (i + 1) 0).toNat
  (word 0, if word 0 = 3 then some (word 2) else none)

/-- A turn of the retry loop sends the request again while the first block is awaited. -/
def Get.request (g : Get) : Get × List Sent := if g.blockno = 1 then ({ g with port := 0 }, [.rrq]) else (g, [])

/-- A turn of the retry loop without a block. -/
def Get.again (retries : Nat) (g : Get) : Get :=
  { g with retry := g.retry + 1, result := if g.retry + 1 < retries then none else some false }

/-- The rest of a turn, with what `recvfrom` returns. -/
def Get.receive (retries addr : Nat) (g : Get) : Option (Sockaddr × List UInt8) → Get × List Sent
  | none => (g.again retries, [])
  | some (sender, bytes) =>
    let packet := bytes.take tftpIobufsize
    if packet = [] then (g.again retries, [])
    -- a packet of somebody else does not count as a retry
    else if sender.addr ≠ addr then (g, [])
    else if g.port ≠ 0 ∧ g.port ≠ sender.port then (g, [.err 5])
    else if packet.length < 4 then (g.again retries, [])
    else
      let (opcode, rblockno) := tftpParsedatapacket packet
      if rblockno ≠ some g.blockno then (g.again retries, if opcode > 5 then [.err 4] else [])
      else
        let data := packet.drop 4
        let port := if g.port = 0 then sender.port else g.port
        if data.length ≥ tftpDatasize then
          (⟨(g.blockno + 1) % 2 ^ 16, 0, port, g.written ++ data, none⟩, [.ack g.blockno])
        else (⟨g.blockno, g.retry, port, g.written ++ data, some true⟩, [.ack g.blockno])

/-! ## The server and the network -/

/-- The block that the server sends, and the number of acknowledgements that were sent to it. -/
structure Server where
  block : Nat
  acks : Nat

structure System where
  get : Get
  server : Server

variable (file : List UInt8) (peer : Sockaddr) (retries lost : Nat)

/-- All packets but one acknowledgement arrive. -/
def Server.hear (s : Server) : Sent → Server
  | .ack blockno => ⟨if s.acks ≠ lost ∧ blockno = s.block then s.block + 1 else s.block, s.acks + 1⟩
  | _ => s

def dataPacket (block : Nat) (data : List UInt8) : List UInt8 :=
  0 :: 3 :: UInt8.ofNat (block / 256) :: UInt8.ofNat block :: data

/-- How many blocks are before the last one, which is not full. -/
def fullBlocks : Nat := file.length / tftpDatasize

def Server.sends (s : Server) : Option (Sockaddr × List UInt8) :=
  if s.block - 1 ≤ fullBlocks file then
    some (peer, dataPacket s.block ((file.drop (tftpDatasize * (s.block - 1))).take tftpDatasize))
  else none

/-- A turn of the retry loop. -/
def turn (late : Bool) (s : System) : System :=
  if s.get.result.isSome then s
  else
    let (g, sent) := s.get.request
    let server := sent.foldl (Server.hear lost) s.server
    let (g, sent) := g.receive retries peer.addr (if late then none else server.sends file peer)
    ⟨g, sent.foldl (Server.hear lost) server⟩

/-- A number of calls of `recvfrom` that time out, and one that does not. -/
def step (s : System) (waits : Nat) : System :=
  turn file peer retries lost false ((turn file peer retries lost true)^[waits] s)

def start : System := ⟨⟨1, 0, 0, [], none⟩, ⟨1, 0⟩⟩

/-! ## Blocks that arrive -/

/-- The client waits for a block, after some retries, and all acknowledgements before have
arrived. -/
def awaiting (i retry : Nat) : System :=
  ⟨⟨i + 1, retry, if i = 0 then 0 else peer.port, file.take (tftpDatasize * i), none⟩, ⟨i + 1, i⟩⟩

variable {file peer retries lost} {g : Get} {s : System} {i r : Nat} {late : Bool}

theorem receive_data {block : Nat} {data : List UInt8} (hport : g.port = 0 ∨ g.port = peer.port)
    (hdata : data.length ≤ tftpDatasize) :
    g.receive retries peer.addr (some (peer, dataPacket block data)) =
      if block % 2 ^ 16 ≠ g.blockno then (g.again retries, [])
      else if data.length = tftpDatasize then
        (⟨(g.blockno + 1) % 2 ^ 16, 0, peer.port, g.written ++ data, none⟩, [.ack g.blockno])
      else (⟨g.blockno, g.retry, peer.port, g.written ++ data, some true⟩, [.ack g.blockno]) := by
  have hwhole : data.take 520 = data := take_of_length_le (hdata.trans (by decide))
  have hword : 256 * (block / 256 % 256) + block % 256 = block % 65536 := by omega
  have hfull : tftpDatasize ≤ data.length ↔ data.length = tftpDatasize := ⟨hdata.antisymm, Eq.ge⟩
  have hheader : ¬ data.length + 1 + 1 + 1 + 1 < 4 := by omega
  rcases hport with h | h
  all_goals simp [Get.receive, dataPacket, tftpIobufsize, tftpParsedatapacket, hwhole, hword, hfull, hheader, h]

theorem Get.request_eq (g : Get) : ∃ port, g.request.1 = { g with port := port } ∧ (port = 0 ∨ port = g.port) := by
  unfold Get.request
  split
  · exact ⟨0, rfl, .inl rfl⟩
  · exact ⟨g.port, rfl, .inr rfl⟩

/-- The server has the request already. -/
theorem turn_eq (h : s.get.result = none) :
    turn file peer retries lost late s =
      let r := s.get.request.1.receive retries peer.addr (if late then none else s.server.sends file peer)
      ⟨r.1, r.2.foldl (Server.hear lost) s.server⟩ := by
  by_cases hfirst : s.get.blockno = 1 <;> simp [turn, h, Get.request, hfirst, Server.hear]

theorem request_awaiting : (awaiting file peer i r).get.request.1 = (awaiting file peer i r).get := by
  by_cases hi : i = 0 <;> simp [Get.request, awaiting, hi]

theorem iterate_late (h : r < retries) :
    (turn file peer retries lost true)^[r] (awaiting file peer i 0) = awaiting file peer i r := by
  induction r with
  | zero => rfl
  | succ r ih =>
    rw [Function.iterate_succ_apply', ih (by omega), turn_eq rfl, request_awaiting]
    simp [awaiting, Get.receive, Get.again, h]

def fileBlock (file : List UInt8) (i : Nat) : List UInt8 := (file.drop (tftpDatasize * i)).take tftpDatasize

theorem take_append_fileBlock (file : List UInt8) (i : Nat) :
    file.take (tftpDatasize * i) ++ fileBlock file i = file.take (tftpDatasize * (i + 1)) := by
  rw [fileBlock, Nat.mul_succ, take_add]

theorem length_fileBlock_le (file : List UInt8) (i : Nat) : (fileBlock file i).length ≤ tftpDatasize :=
  length_take_le _ _

theorem length_fileBlock (hi : i ≤ fullBlocks file) :
    (fileBlock file i).length = tftpDatasize ↔ i ≠ fullBlocks file := by
  rw [fileBlock, length_take, length_drop]
  dsimp only [fullBlocks, tftpDatasize] at *
  omega

theorem take_fullBlocks (file : List UInt8) : file.take (tftpDatasize * (fullBlocks file + 1)) = file :=
  take_of_length_le (Nat.lt_mul_div_succ _ (by decide)).le

/-- The block that the client waits for is written and acknowledged. -/
theorem turn_awaiting (hblocks : fullBlocks file + 1 < 2 ^ 16) (hi : i ≤ fullBlocks file) :
    turn file peer retries lost false (awaiting file peer i r) =
      ⟨if i = fullBlocks file then ⟨i + 1, r, peer.port, file, some true⟩ else (awaiting file peer (i + 1) 0).get,
        ⟨if i ≠ lost then i + 2 else i + 1, i + 1⟩⟩ := by
  have hport : (awaiting file peer i r).get.port = 0 ∨ (awaiting file peer i r).get.port = peer.port := by
    by_cases hfirst : i = 0 <;> simp [awaiting, hfirst]
  have hsends : (awaiting file peer i r).server.sends file peer = some (peer, dataPacket (i + 1) (fileBlock file i)) :=
    if_pos hi
  have hblock : (i + 1) % 2 ^ 16 = i + 1 := Nat.mod_eq_of_lt (by omega)
  rw [turn_eq rfl, request_awaiting, if_neg Bool.false_ne_true, hsends,
    receive_data hport (length_fileBlock_le file i), hblock, if_neg (by simp [awaiting])]
  simp only [length_fileBlock hi]
  by_cases hlast : i = fullBlocks file
  · simp [awaiting, take_append_fileBlock, hlast, take_fullBlocks, Server.hear]
  rw [if_pos hlast, if_neg hlast]
  simp [awaiting, take_append_fileBlock, Server.hear]
  omega

/-! ## A lost acknowledgement -/

/-- The server does not send the block that the client waits for. -/
structure Stuck (peer : Sockaddr) (s : System) : Prop where
  result : s.get.result ≠ some true
  blockno : s.server.block ≠ s.get.blockno
  block : s.server.block < 2 ^ 16
  port : s.get.port = 0 ∨ s.get.port = peer.port

/-- The client takes the block for one that it does not know, and sends nothing. -/
theorem Stuck.turn (h : Stuck peer s) : Stuck peer (turn file peer retries lost late s) := by
  cases hresult : s.get.result with
  | some ok => simpa only [Tftpc.turn, hresult, Option.isSome_some, if_true] using h
  | none =>
    obtain ⟨port, hrequest, hkept⟩ := s.get.request_eq
    have hport : port = 0 ∨ port = peer.port := hkept.elim .inl fun hkept => hkept ▸ h.port
    have hagain : ({ s.get with port := port } : Get).receive retries peer.addr
        (if late then none else s.server.sends file peer) =
      (({ s.get with port := port } : Get).again retries, []) := by
      unfold Server.sends
      split_ifs
      · rfl
      · rw [receive_data hport (length_take_le _ _), Nat.mod_eq_of_lt h.block, if_pos h.blockno]
      · rfl
    rw [turn_eq hresult, hrequest, hagain]
    refine ⟨?_, h.blockno, h.block, hport⟩
    dsimp only [Get.again]
    split <;> simp

theorem Stuck.step {waits : Nat} (h : Stuck peer s) : Stuck peer (step file peer retries lost s waits) :=
  (Function.Iterate.rec (Stuck peer) h (fun _ => Stuck.turn) waits).turn

theorem run_returned {waits : List Nat} (h : s.get.result = some true) :
    run (step file peer retries lost) s waits = s := by
  have hturn (late : Bool) : turn file peer retries lost late s = s := by simp [turn, h]
  refine run_invariant (I := (· = s)) ?_ rfl waits
  rintro _ w rfl
  rw [step, Function.iterate_fixed (hturn true), hturn]

/-- Whenever the packets come, as long as the client has not given up before one does, the download
succeeds exactly if the acknowledgement of the last block is the one that is lost. -/
theorem download_iff (file : List UInt8) (peer : Sockaddr) (retries lost : Nat) (waits : List Nat)
    (hblocks : fullBlocks file + 1 < 2 ^ 16) (hlost : lost ≤ fullBlocks file) (hwaits : ∀ w ∈ waits, w < retries)
    (hlong : fullBlocks file < waits.length) :
    ((run (step file peer retries lost) start waits).get.result = some true ∧
        (run (step file peer retries lost) start waits).get.written = file) ↔ lost = fullBlocks file := by
  suffices hrun : ∀ i ≤ lost, fullBlocks file - i < waits.length →
      ((run (step file peer retries lost) (awaiting file peer i 0) waits).get.result = some true ∧
        (run (step file peer retries lost) (awaiting file peer i 0) waits).get.written = file ↔
          lost = fullBlocks file) from hrun 0 (Nat.zero_le _) hlong
  clear hlong
  induction waits with
  | nil => exact fun _ _ hlong => absurd hlong (Nat.not_lt_zero _)
  | cons w waits ih =>
    intro i hi hlong
    obtain ⟨hw, hwaits⟩ := forall_mem_cons.mp hwaits
    rw [run_cons, step, iterate_late hw, turn_awaiting hblocks (hi.trans hlost)]
    by_cases hlast : i = fullBlocks file
    · rw [if_pos hlast, run_returned rfl]
      exact iff_of_true ⟨rfl, rfl⟩ (hlost.antisymm (hlast ▸ hi))
    rw [if_neg hlast]
    by_cases hnext : i = lost
    · -- from here on the server sends a block that the client has
      rw [if_neg (not_not.mpr hnext)]
      have hstuck : Stuck peer ⟨(awaiting file peer (i + 1) 0).get, ⟨i + 1, i + 1⟩⟩ :=
        ⟨nofun, by simp [awaiting], by dsimp only; omega, .inr rfl⟩
      have hend : Stuck peer (run (step file peer retries lost) _ waits) :=
        run_invariant (fun _ _ => Stuck.step) hstuck waits
      exact ⟨fun h => absurd h.1 hend.result, fun h => absurd (hnext.trans h) hlast⟩
    · rw [if_pos hnext]
      exact ih hwaits (i + 1) (by omega) (by simp at hlong; omega)

/-- Three blocks, each after some time-outs. -/
theorem download_three :
    (run (step (replicate 1100 65) ⟨1, 69⟩ 3 2) start [2, 0, 1]).get.result = some true ∧
    (run (step (replicate 1100 65) ⟨1, 69⟩ 3 2) start [2, 0, 1]).get.written = replicate 1100 65 := by
  have hblocks : fullBlocks (replicate 1100 65) = 2 := by
    rw [fullBlocks, length_replicate]
    rfl
  exact (download_iff _ ⟨1, 69⟩ 3 2 [2, 0, 1] (by rw [hblocks]; decide) hblocks.ge (by decide)
    (by rw [hblocks]; decide)).mpr hblocks.symm

/-- Two blocks, of which the first one is acknowledged in vain. -/
theorem not_download : (run (step (replicate 512 65) ⟨1, 69⟩ 3 0) start [0, 0, 0, 0]).get.result = some false := by
  decide +kernel

/-! ## Packets that are repeated and late -/

/-- What `recvfrom` returns in a turn is nothing, a packet of somebody else, or a block that any
session of the server may have sent at any time. -/
def Delivers (file : List UInt8) (addr : Nat) : Option (Sockaddr × List UInt8) → Prop
  | none => True
  | some (sender, packet) =>
    sender.addr = addr → ∃ i ≤ fullBlocks file, packet = dataPacket (i + 1) (fileBlock file i)

/-- A turn of the retry loop with any packet. -/
def Get.turn (retries addr : Nat) (g : Get) (answer : Option (Sockaddr × List UInt8)) : Get :=
  if g.result.isSome then g else (g.request.1.receive retries addr answer).1

/-- A result `OK` is for the whole file, and a turn behind the first block sends no request. -/
structure Exact (file : List UInt8) (g : Get) : Prop where
  whole : g.result = some true → g.written = file
  once : g.result = none → g.written ≠ [] → g.request.2 = []

/-- The client waits for a block, and it has written those before. -/
structure Reached (file : List UInt8) (g : Get) : Prop where
  whole : g.result = some true → g.written = file
  next : g.result = none →
    ∃ i ≤ fullBlocks file, g.blockno = (i + 1) % 2 ^ 16 ∧ g.written = file.take (tftpDatasize * i)

theorem Reached.again (h : Reached file g) (hresult : g.result = none) : Reached file (g.again retries) := by
  dsimp only [Get.again]
  split
  · exact ⟨nofun, fun _ => h.next hresult⟩
  · exact ⟨nofun, nofun⟩

theorem Reached.receive {addr : Nat} {answer : Option (Sockaddr × List UInt8)} (hblocks : fullBlocks file < 2 ^ 16)
    (h : Reached file g) (hresult : g.result = none) (hanswer : Delivers file addr answer) :
    Reached file (g.receive retries addr answer).1 := by
  cases answer with
  | none => exact h.again hresult
  | some packet =>
    obtain ⟨sender, bytes⟩ := packet
    by_cases haddr : sender.addr = addr
    · obtain ⟨j, hj, rfl⟩ := hanswer haddr
      subst haddr
      obtain ⟨i, hi, hblockno, hwritten⟩ := h.next hresult
      by_cases hport : g.port = 0 ∨ g.port = sender.port
      · rw [receive_data hport (length_fileBlock_le file j)]
        have hblock : (j + 1) % 2 ^ 16 = g.blockno →
            g.written ++ fileBlock file j = file.take (tftpDatasize * (j + 1)) := by
          intro hj
          obtain rfl : j = i := by omega
          rw [hwritten, take_append_fileBlock]
        split_ifs with hother hfull
        · exact h.again hresult
        · have hmore := (length_fileBlock hj).mp hfull
          refine ⟨nofun, fun _ => ⟨j + 1, by omega, ?_, hblock (not_not.mp hother)⟩⟩
          rw [← not_not.mp hother, Nat.mod_add_mod]
        · have hlast : j = fullBlocks file := not_not.mp (mt (length_fileBlock hj).mpr hfull)
          refine ⟨fun _ => (hblock (not_not.mp hother)).trans ?_, nofun⟩
          rw [hlast, take_fullBlocks]
      · rw [not_or] at hport
        simpa [Get.receive, dataPacket, tftpIobufsize, hport] using h
    · simp only [Get.receive, haddr, ne_eq, not_false_eq_true, if_true]
      split_ifs
      · exact h.again hresult
      · exact h

theorem Reached.turn {addr : Nat} {answer : Option (Sockaddr × List UInt8)} (hblocks : fullBlocks file < 2 ^ 16)
    (h : Reached file g) (hanswer : Delivers file addr answer) : Reached file (g.turn retries addr answer) := by
  cases hresult : g.result with
  | some ok => rwa [Get.turn, hresult, Option.isSome_some, if_pos rfl]
  | none =>
    obtain ⟨port, hrequest, -⟩ := g.request_eq
    rw [Get.turn, hresult, if_neg (by simp), hrequest]
    exact Reached.receive hblocks ⟨h.whole, h.next⟩ hresult hanswer

theorem Reached.exact (hblocks : fullBlocks file < 2 ^ 16) (h : Reached file g) : Exact file g := by
  refine ⟨h.whole, fun hresult hwritten => ?_⟩
  obtain ⟨i, hi, hblockno, htake⟩ := h.next hresult
  refine congrArg Prod.snd (if_neg fun hfirst => hwritten ?_)
  obtain rfl : i = 0 := by omega
  exact htake

/-- The blocks of the server, each once and in order. -/
def inOrder (file : List UInt8) (peer : Sockaddr) (n : Nat) : List (Option (Sockaddr × List UInt8)) :=
  (range n).map fun i => some (peer, dataPacket (i + 1) (fileBlock file i))

theorem delivers_inOrder (peer : Sockaddr) {n : Nat} (hn : n ≤ fullBlocks file) :
    ∀ answer ∈ inOrder file peer n, Delivers file peer.addr answer := by
  rw [inOrder, forall_mem_map]
  exact fun i hi _ => ⟨i, ((mem_range.mp hi).trans_le hn).le, rfl⟩

/-- The client has got a number of blocks in order. -/
structure Counted (peer : Sockaddr) (n : Nat) (g : Get) : Prop where
  result : g.result = none
  blockno : g.blockno = (n + 1) % 2 ^ 16
  port : g.port = 0 ∨ g.port = peer.port
  written : g.written.length = tftpDatasize * n

theorem Counted.turn {n : Nat} (hn : n < fullBlocks file) (h : Counted peer n g) :
    Counted peer (n + 1) (g.turn retries peer.addr (some (peer, dataPacket (n + 1) (fileBlock file n)))) := by
  obtain ⟨port, hrequest, hkept⟩ := g.request_eq
  have hport : port = 0 ∨ port = peer.port := hkept.elim .inl fun hkept => hkept ▸ h.port
  have hfull : (fileBlock file n).length = tftpDatasize := (length_fileBlock hn.le).mpr hn.ne
  rw [Get.turn, h.result, if_neg (by simp), hrequest, receive_data hport hfull.le,
    if_neg (not_not.mpr h.blockno.symm), if_pos hfull]
  refine ⟨rfl, ?_, .inr rfl, ?_⟩
  · rw [h.blockno, Nat.mod_add_mod]
  · rw [length_append, h.written, hfull, Nat.mul_succ]

theorem counted_inOrder (peer : Sockaddr) (retries : Nat) {n : Nat} (hn : n ≤ fullBlocks file) :
    Counted peer n (run (Get.turn retries peer.addr) start.get (inOrder file peer n)) := by
  induction n with
  | zero => exact ⟨rfl, rfl, .inl rfl, rfl⟩
  | succ n ih =>
    rw [inOrder, range_succ, map_append, run_append]
    exact (ih (by omega)).turn hn

/-- Behind block 2 ^ 16, whose number is 0, comes one with the number of the first block. -/
theorem not_exact_inOrder (peer : Sockaddr) (h : 2 ^ 16 ≤ fullBlocks file) :
    ¬ Exact file (run (Get.turn retries peer.addr) start.get (inOrder file peer (2 ^ 16))) := by
  intro hexact
  have hrun := counted_inOrder peer retries h
  have hsent := hexact.once hrun.result (ne_nil_of_length_pos (by rw [hrun.written]; decide))
  rw [Get.request, hrun.blockno] at hsent
  cases hsent

/-- Whatever is lost, repeated or late, a download is exact, up to files of 2 ^ 16 blocks and for no
larger file. -/
theorem download_exact (file : List UInt8) (addr retries : Nat) :
    (∀ answers, (∀ answer ∈ answers, Delivers file addr answer) →
      Exact file (run (Get.turn retries addr) start.get answers)) ↔ fullBlocks file < 2 ^ 16 := by
  constructor
  · intro hexact
    by_contra hblocks
    exact not_exact_inOrder ⟨addr, 69⟩ (not_lt.mp hblocks)
      (hexact _ (delivers_inOrder ⟨addr, 69⟩ (not_lt.mp hblocks)))
  · intro hblocks answers hserver
    refine Reached.exact hblocks
      (run_induct (I := Reached file) (C := fun _ => Delivers file addr) ?_ ?_ (Meets.of_labels hserver))
    · exact fun _ _ h hanswer => h.turn hblocks hanswer
    · exact ⟨nofun, fun _ => ⟨0, Nat.zero_le _, rfl, rfl⟩⟩

/-- A file of 2 ^ 16 full blocks, none of which is lost, repeated or late. -/
theorem not_download_exact :
    (∀ answer ∈ inOrder (replicate (tftpDatasize * 2 ^ 16) 65) ⟨1, 69⟩ (2 ^ 16),
      Delivers (replicate (tftpDatasize * 2 ^ 16) 65) 1 answer) ∧
    ¬ Exact (replicate (tftpDatasize * 2 ^ 16) 65)
      (run (Get.turn 3 1) start.get (inOrder (replicate (tftpDatasize * 2 ^ 16) 65) ⟨1, 69⟩ (2 ^ 16))) := by
  have hblocks : 2 ^ 16 ≤ fullBlocks (replicate (tftpDatasize * 2 ^ 16) 65) := by
    rw [fullBlocks, length_replicate, Nat.mul_div_cancel_left _ (by decide)]
  exact ⟨delivers_inOrder ⟨1, 69⟩ hblocks, not_exact_inOrder ⟨1, 69⟩ hblocks⟩

end Netutils.Tftpc
