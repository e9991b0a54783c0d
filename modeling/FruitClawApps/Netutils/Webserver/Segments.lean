-- SUMMARY: Requests are read alike however they are split, unless after a carriage return.
import FruitClawApps.Netutils.Webserver.Request

/-!
# How a request is split does not matter

The scan of a stream is the scan of its pieces, one after the other, as long as no piece ends
behind a carriage return. So what `httpd_parse` returns is determined by the stream.
-/

namespace Netutils.Webserver

open Bytes Socket List

/-! ## Header blocks -/

/-- The lines before the first empty one, and what follows it. The last line has no end if there
is no empty one. -/
def splitHeader (line : List Char) : List Char → List (List Char) × Option (List Char)
  | [] => ([line], none)
  | '\r' :: '\n' :: rest =>
    if line = [] then ([], some rest)
    else
      let (lines, body) := splitHeader [] rest
      (line :: lines, body)
  | c :: rest => splitHeader (line ++ [c]) rest

/-- Whether a receive call in the header block ends behind a carriage return, with a buffer of some
size and an unfinished line in it. -/
def cutFrom (cfg : Config) (size : Nat) : Nat → List Char → Phase → Request → Conn Char → Bool
  | 0, _, _, _, _ => false
  | fuel + 1, line, phase, r, c =>
    if size ≤ line.length then false
    else
      match c.recv (size - line.length) with
      | (.error _, _) => false
      | (.ok bytes, c) =>
        match scan cfg line bytes phase r with
        | .split .. => true
        | .waiting line phase r => cutFrom cfg size fuel line phase r c
        | _ => false

/-- Whether a receive call in the header block of the next request ends behind a carriage return. -/
def cutAtCr (cfg : Config) (size : Nat) (filename : CStr) (c : Conn Char) : Bool :=
  cutFrom cfg size (c.stream.length + 1) [] .method (.fresh filename) c

section

variable {cfg : Config} {line a b : List Char} {phase phase' : Phase} {r r' : Request} {code : Nat} {s : Scan}

/-! ## The scan of a stream -/

theorem scan_of_ne {c : Char} (hc : c ≠ '\r') (line rest : List Char) (phase : Phase) (r : Request) :
    scan cfg line (c :: rest) phase r = scan cfg (line ++ [c]) rest phase r := by
  rw [scan]
  · rintro rfl
    exact absurd rfl hc
  · rintro _ _ rfl
    exact absurd rfl hc

theorem scan_stray {c : Char} (hc : c ≠ '\n') (line rest : List Char) (phase : Phase) (r : Request) :
    scan cfg line ('\r' :: c :: rest) phase r = .refused 400 := if_pos hc

theorem scan_crlf (line rest : List Char) (phase : Phase) (r : Request) :
    scan cfg line ('\r' :: '\n' :: rest) phase r =
      match parseLine cfg phase (CStr.ofMem line) r with
      | .error code => .refused code
      | .ok (phase, r) => if phase = .body then .finished rest r else scan cfg [] rest phase r := rfl

theorem scan_of_error (h : parseLine cfg phase (CStr.ofMem line) r = .error code) (rest : List Char) :
    scan cfg line ('\r' :: '\n' :: rest) phase r = .refused code := by
  rw [scan_crlf, h]

theorem scan_of_body (h : parseLine cfg phase (CStr.ofMem line) r = .ok (.body, r')) (rest : List Char) :
    scan cfg line ('\r' :: '\n' :: rest) phase r = .finished rest r' := by
  rw [scan_crlf, h]
  rfl

theorem scan_of_line (h : parseLine cfg phase (CStr.ofMem line) r = .ok (phase', r')) (hphase : phase' ≠ .body)
    (rest : List Char) : scan cfg line ('\r' :: '\n' :: rest) phase r = scan cfg [] rest phase' r' := by
  rw [scan_crlf, h]
  exact if_neg hphase

/-- How a scan ends, by what the next bytes are. -/
inductive Scans (cfg : Config) : List Char → List Char → Phase → Request → Scan → Prop where
  | nil (line : List Char) (phase : Phase) (r : Request) : Scans cfg line [] phase r (.waiting line phase r)
  | cut (line : List Char) (phase : Phase) (r : Request) : Scans cfg line ['\r'] phase r (.split line phase r)
  | stray {line rest : List Char} {phase : Phase} {r : Request} {c : Char} (hc : c ≠ '\n') :
    Scans cfg line ('\r' :: c :: rest) phase r (.refused 400)
  | error {line rest : List Char} {phase : Phase} {r : Request} {code : Nat}
    (hparse : parseLine cfg phase (CStr.ofMem line) r = .error code) :
    Scans cfg line ('\r' :: '\n' :: rest) phase r (.refused code)
  | blank {line rest : List Char} {phase : Phase} {r r' : Request}
    (hparse : parseLine cfg phase (CStr.ofMem line) r = .ok (.body, r')) :
    Scans cfg line ('\r' :: '\n' :: rest) phase r (.finished rest r')
  | field {line rest : List Char} {phase phase' : Phase} {r r' : Request} {s : Scan}
    (hparse : parseLine cfg phase (CStr.ofMem line) r = .ok (phase', r')) (hbody : phase' ≠ .body)
    (h : Scans cfg [] rest phase' r' s) : Scans cfg line ('\r' :: '\n' :: rest) phase r s
  | char {line rest : List Char} {phase : Phase} {r : Request} {s : Scan} {c : Char} (hc : c ≠ '\r')
    (h : Scans cfg (line ++ [c]) rest phase r s) : Scans cfg line (c :: rest) phase r s

theorem scans (h : scan cfg line a phase r = s) : Scans cfg line a phase r s := by
  subst h
  fun_induction scan cfg line a phase r with
  | case1 line phase r => exact .nil line phase r
  | case2 line phase r => exact .cut line phase r
  | case3 line c rest phase r hc => exact .stray hc
  | case4 line c rest phase r hc code hparse =>
    obtain rfl := not_not.mp hc
    exact .error hparse
  | case5 line c rest phase r hc r' hparse =>
    obtain rfl := not_not.mp hc
    exact .blank hparse
  | case6 line c rest phase r hc phase' r' hparse hbody ih =>
    obtain rfl := not_not.mp hc
    exact .field hparse hbody ih
  | case7 line c rest phase r hlast hmore ih =>
    refine .char (fun hc => ?_) ih
    cases rest with
    | nil => exact hlast hc rfl
    | cons d rest' => exact hmore d rest' hc rfl

/-- A scan that goes on with what comes next. -/
def Scan.continue (cfg : Config) (b : List Char) : Scan → Scan
  | .refused code => .refused code
  | .waiting line phase r => scan cfg line b phase r
  | .split line phase r => scan cfg line ('\r' :: b) phase r
  | .finished rest r => .finished (rest ++ b) r

theorem scan_append (line a b : List Char) (phase : Phase) (r : Request) :
    scan cfg line (a ++ b) phase r = (scan cfg line a phase r).continue cfg b := by
  have h := scans (rfl : scan cfg line a phase r = _)
  generalize scan cfg line a phase r = s at h ⊢
  induction h with
  | nil | cut => rfl
  | stray hc => rw [cons_append, cons_append, scan_stray hc, Scan.continue]
  | error hparse => rw [cons_append, cons_append, scan_of_error hparse, Scan.continue]
  | blank hparse => rw [cons_append, cons_append, scan_of_body hparse, Scan.continue]
  | field hparse hbody _ ih => rw [cons_append, cons_append, scan_of_line hparse hbody, ih]
  | char hc _ ih => rw [cons_append, scan_of_ne hc, ih]

theorem scan_line {line : List Char} (h : '\r' ∉ line) (before a : List Char) (phase : Phase) (r : Request) :
    scan cfg before (line ++ a) phase r = scan cfg (before ++ line) a phase r := by
  induction line generalizing before with
  | nil => rw [nil_append, append_nil]
  | cons c line ih =>
    rw [mem_cons, not_or] at h
    rw [cons_append, scan_of_ne (Ne.symm h.1), ih h.2, append_assoc]
    rfl

variable {line' : List Char}

/-- What a scan keeps of an unfinished line. -/
theorem waiting_of_scan (hline : '\r' ∉ line) (h : scan cfg line a phase r = .waiting line' phase' r') :
    '\r' ∉ line' ∧ line'.length ≤ line.length + a.length := by
  generalize hs : Scan.waiting line' phase' r' = s at h
  replace h := scans h
  induction h with
  | nil =>
    cases hs
    exact ⟨hline, Nat.le_refl _⟩
  | field _ _ _ ih =>
    obtain ⟨hcr, hle⟩ := ih not_mem_nil hs
    refine ⟨hcr, ?_⟩
    simp only [length_cons, length_nil] at hle ⊢
    omega
  | char hc _ ih =>
    obtain ⟨hcr, hle⟩ := ih (by simp [hline, hc.symm]) hs
    refine ⟨hcr, ?_⟩
    simp only [length_append, length_cons, length_nil] at hle ⊢
    omega
  | cut | stray | error | blank => cases hs

/-! ## Header blocks and scans -/

theorem splitHeader_crlf (hline : line ≠ []) (rest : List Char) :
    splitHeader line ('\r' :: '\n' :: rest) = (line :: (splitHeader [] rest).1, (splitHeader [] rest).2) := if_neg hline

theorem splitHeader_of_ne {c : Char} (hc : c ≠ '\r') (line rest : List Char) :
    splitHeader line (c :: rest) = splitHeader (line ++ [c]) rest := by
  rw [splitHeader]
  rintro _ rfl
  exact absurd rfl hc

theorem splitHeader_long (line a : List Char) :
    line = [] ∨ ∃ l ∈ (splitHeader line a).1, line.length ≤ l.length := by
  fun_induction splitHeader line a with
  | case1 line => exact .inr ⟨line, mem_cons_self, Nat.le_refl _⟩
  | case2 => exact .inl rfl
  | case3 line rest _ lines body => exact .inr ⟨line, mem_cons_self, Nat.le_refl _⟩
  | case4 line c rest _ ih =>
    rcases ih with hnil | ⟨l, hl, hle⟩
    · exact absurd hnil (by simp)
    · rw [length_append] at hle
      exact .inr ⟨l, hl, by omega⟩

theorem ne_nil_of_parse (hphase : phase ≠ .body) (h : parseLine cfg phase (CStr.ofMem line) r = .ok (phase', r'))
    (hbody : phase' ≠ .body) : line ≠ [] := by
  rintro rfl
  rcases parseLine_cases cfg hphase (CStr.ofMem []) r with ⟨_, herror, -⟩ | ⟨-, -, hblank⟩ | ⟨hno, -⟩
  · cases h.symm.trans herror
  · cases h.symm.trans hblank
    exact hbody rfl
  · exact hno rfl

/-- There is no blank line in what has been scanned, and the line that is not finished is one of the
header block. -/
theorem splitHeader_waiting (hphase : phase ≠ .body) (h : scan cfg line a phase r = .waiting line' phase' r') :
    (splitHeader line a).2 = none ∧ ∀ b, ∀ l ∈ (splitHeader line' b).1, l ∈ (splitHeader line (a ++ b)).1 := by
  generalize hs : Scan.waiting line' phase' r' = s at h
  replace h := scans h
  induction h with
  | nil =>
    cases hs
    exact ⟨rfl, fun b l hl => hl⟩
  | field hparse hbody _ ih =>
    obtain ⟨hnone, hmem⟩ := ih hbody hs
    have hsplit := splitHeader_crlf (ne_nil_of_parse hphase hparse hbody)
    rw [hsplit]
    refine ⟨hnone, fun b l hl => ?_⟩
    rw [cons_append, cons_append, hsplit]
    exact mem_cons_of_mem _ (hmem b l hl)
  | char hc _ ih =>
    obtain ⟨hnone, hmem⟩ := ih hphase hs
    rw [splitHeader_of_ne hc]
    refine ⟨hnone, fun b l hl => ?_⟩
    rw [cons_append, splitHeader_of_ne hc]
    exact hmem b l hl
  | cut | stray | error | blank => cases hs

/-- A scan that ends behind a carriage return has not come to the blank line. -/
theorem splitHeader_split (hphase : phase ≠ .body)
    (h : scan cfg line a phase r = .split line' phase' r') : (splitHeader line a).2 = none := by
  generalize hs : Scan.split line' phase' r' = s at h
  replace h := scans h
  induction h with
  | cut => rfl
  | field hparse hbody _ ih =>
    rw [splitHeader_crlf (ne_nil_of_parse hphase hparse hbody)]
    exact ih hbody hs
  | char hc _ ih =>
    rw [splitHeader_of_ne hc]
    exact ih hphase hs
  | nil | stray | error | blank => cases hs

theorem splitHeader_append {rest : List Char} (h : (splitHeader line a).2 = some rest) (b : List Char) :
    (splitHeader line (a ++ b)).2 = some (rest ++ b) := by
  fun_induction splitHeader line a with
  | case1 line => cases h
  | case2 rest' => exact congrArg (Option.map (· ++ b)) h
  | case3 line rest' hline lines body heq ih =>
    rw [cons_append, cons_append, splitHeader_crlf hline]
    rw [heq] at ih
    exact ih h
  | case4 line c rest' hcrlf ih =>
    rw [cons_append, splitHeader]
    · exact ih h
    rintro d rfl hd
    cases rest' with
    | nil => cases h
    | cons c' rest' =>
      cases hd
      exact hcrlf rest' rfl rfl

theorem refused_of_scan (h : scan cfg line a phase r = .refused code) : 400 ≤ code := by
  generalize hs : Scan.refused code = s at h
  replace h := scans h
  induction h with
  | stray =>
    cases hs
    exact Nat.le_refl _
  | error hparse =>
    cases hs
    exact parseLine_error cfg hparse
  | field _ _ _ ih | char _ _ ih => exact ih hs
  | nil | cut | blank => cases hs

theorem ofMem_ne_nil {l : List Char} (h : l ≠ []) (hnul : l.head? ≠ some '\x00') : CStr.ofMem l ≠ [] := by
  cases l with
  | nil => exact absurd rfl h
  | cons c l =>
    have hc : c ≠ '\x00' := fun heq => hnul (congrArg some heq)
    rw [CStr.ofMem, takeWhile_cons_of_pos (by simpa using hc)]
    exact cons_ne_nil _ _

/-- A finished scan has come to the end of the header block, if the parser takes no other line to be
blank. -/
theorem finished_of_scan {rest : List Char} (hphase : phase ≠ .body) (h : scan cfg line a phase r = .finished rest r') :
    (Pending cfg phase r → Pending cfg .body r') ∧
      ((∀ l ∈ (splitHeader line a).1, l.head? ≠ some '\x00') → (splitHeader line a).2 = some rest) := by
  generalize hs : Scan.finished rest r' = s at h
  replace h := scans h
  induction h with
  | blank hparse =>
    cases hs
    rename_i line phase r
    rcases parseLine_cases cfg hphase (CStr.ofMem line) r with ⟨_, herror, -⟩ | ⟨rfl, hblank, hok⟩ | ⟨-, _, hok, -⟩
    · cases hparse.symm.trans herror
    · cases hparse.symm.trans hok
      refine ⟨fun hp => ⟨hp.body, hp.post, fun _ => hp.filename (by decide)⟩, fun hplain => ?_⟩
      by_cases hline : line = []
      · subst hline
        rfl
      · rw [splitHeader_crlf hline] at hplain
        exact absurd hblank (ofMem_ne_nil hline (hplain line mem_cons_self))
    · cases hparse.symm.trans hok
  | field hparse hbody _ ih =>
    obtain ⟨hpending, hrest⟩ := ih hbody hs
    rw [splitHeader_crlf (ne_nil_of_parse hphase hparse hbody)]
    rcases parseLine_cases cfg hphase _ _ with ⟨_, herror, -⟩ | ⟨-, -, hok⟩ | ⟨-, _, hok, hnext⟩
    · cases hparse.symm.trans herror
    · cases hparse.symm.trans hok
      exact absurd rfl hbody
    · cases hparse.symm.trans hok
      exact ⟨fun hp => hpending (hnext hp), fun hplain => hrest fun l hl => hplain l (mem_cons_of_mem _ hl)⟩
  | char hc _ ih =>
    rw [splitHeader_of_ne hc]
    exact ih hphase hs
  | nil | cut | stray | error => cases hs

/-! ## What a stream leads to -/

/-- The request, or the status if it is not 200. -/
def Parsed.result (p : Parsed) : Except Status Request :=
  if p.status = .http 200 then .ok p.request else .error p.status

/-- What the bytes behind the blank line lead to. -/
def bodyResult (cfg : Config) (rest : List Char) (last : End) (r : Request) : Except Status Request :=
  if !cfg.post ∨ r.method ≠ .post then .ok (indexed cfg r)
  else if !r.contentLengthPresent then .error (.http 411)
  else if r.contentLength > cfg.maxBody then .error (.http 413)
  else if !cfg.canAllocate (r.contentLength + 1) then .error (.http 500)
  else if r.contentLength ≤ rest.length then .ok (indexed cfg { r with body := rest.take r.contentLength })
  else .error (.http (failure cfg last))

/-- What the end of a stream in the header block leads to. -/
def lost (cfg : Config) (last : End) : Status := if last = .closed then .error else .http (failure cfg last)

/-- What the scan of a whole stream leads to. -/
def Scan.result (cfg : Config) (last : End) : Scan → Except Status Request
  | .refused code => .error (.http code)
  | .waiting .. => .error (lost cfg last)
  | .split .. => .error (lost cfg last)
  | .finished rest r => bodyResult cfg rest last r

theorem Parsed.result_ok {p : Parsed} {r : Request} : p.result = .ok r ↔ p.status = .http 200 ∧ p.request = r := by
  unfold Parsed.result
  split
  · rename_i hstatus
    exact ⟨fun h => ⟨hstatus, Except.ok.inj h⟩, fun h => congrArg _ h.2⟩
  · rename_i hstatus
    exact ⟨fun h => absurd h (by simp), fun h => absurd h.1 hstatus⟩

theorem http_ne_accepted (hcode : 400 ≤ code) : Status.http code ≠ .http 200 := by
  intro heq
  cases heq
  exact absurd hcode (by decide)

theorem Parsed.result_http {p : Parsed} (hcode : 400 ≤ code) (h : p.status = .http code) :
    p.result = .error (.http code) := by
  rw [Parsed.result, h, if_neg (http_ne_accepted hcode)]

theorem failure_ge (e : End) : 400 ≤ failure cfg e := by
  unfold failure
  split <;> decide

theorem lost_ne_accepted (e : End) : lost cfg e ≠ .http 200 := by
  unfold lost
  split
  · exact fun h => by cases h
  · exact http_ne_accepted (failure_ge e)

/-- How reading a request ends, by the scan of what has been received. -/
def Scan.Ends (cfg : Config) (size : Nat) (p : Parsed) (cut : Bool) : Scan → Prop
  | .refused code => cut = false ∧ p.status = .http code
  | .waiting line _ _ =>
    cut = false ∧
      (p.status = .http 413 ∧ size ≤ line.length ∨ p.status = lost cfg p.conn.last ∧ p.conn.stream = [])
  | .split .. => cut = true ∧ (p.status = .overrun ∨ ∃ code, 400 ≤ code ∧ p.status = .http code)
  | .finished rest r =>
    cut = false ∧ ∀ tail, tail <+: p.conn.stream → p.result = bodyResult cfg (rest ++ tail) p.conn.last r

/-- The body is what follows the blank line, wherever the buffer ended. -/
theorem afterHeader_ends (cfg : Config) (buffer buffered : List Char) (r : Request) (c : Conn Char) :
    ∃ more, c.stream = more ++ (afterHeader cfg buffer buffered r c).conn.stream ∧
      (afterHeader cfg buffer buffered r c).conn.last = c.last ∧
      (Scan.finished (buffered ++ more) r).Ends cfg buffer.length (afterHeader cfg buffer buffered r c) false := by
  unfold afterHeader httpdReadBody Scan.Ends
  split_ifs with hpost hpresent hmax hmemory
  · refine ⟨[], rfl, rfl, rfl, fun tail _ => ?_⟩
    rw [bodyResult, if_pos hpost]
    rfl
  · refine ⟨[], rfl, rfl, rfl, fun tail _ => ?_⟩
    rw [bodyResult, if_neg hpost, if_pos hpresent]
    exact Parsed.result_http (by decide) rfl
  · refine ⟨[], rfl, rfl, rfl, fun tail _ => ?_⟩
    rw [bodyResult, if_neg hpost, if_neg hpresent, if_pos hmax]
    exact Parsed.result_http (by decide) rfl
  · refine ⟨[], rfl, rfl, rfl, fun tail _ => ?_⟩
    rw [bodyResult, if_neg hpost, if_neg hpresent, if_neg hmax, if_pos hmemory]
    exact Parsed.result_http (by decide) rfl
  have hbody : ∀ rest last, bodyResult cfg rest last r = _ := fun rest last => by
    rw [bodyResult, if_neg hpost, if_neg hpresent, if_neg hmax, if_neg hmemory]
  have hrecv := Conn.recvExact_received (Nat.le_refl (r.contentLength - min r.contentLength buffered.length)) c
  dsimp only
  generalize c.recvExact _ _ = received at hrecv ⊢
  obtain ⟨answer, c'⟩ := received
  cases answer with
  | error e =>
    obtain ⟨hshort, hstream, he, hlast⟩ := hrecv
    refine ⟨c.stream, by rw [hstream, append_nil], hlast, rfl, fun tail htail => ?_⟩
    rw [hstream, prefix_nil] at htail
    rw [htail, append_nil, hbody, if_neg (by rw [length_append]; omega), hlast, ← he]
    exact Parsed.result_http (failure_ge e) rfl
  | ok more =>
    obtain ⟨hlength, hstream, hlast⟩ := hrecv
    refine ⟨more, hstream, hlast, rfl, fun tail _ => ?_⟩
    rw [hbody, if_pos (by rw [length_append, length_append]; omega)]
    have htake : buffered.take (min r.contentLength buffered.length) = buffered.take r.contentLength := by
      rw [take_eq_take_iff]
      omega
    have hmore : (more ++ tail).take (r.contentLength - buffered.length) = more := take_left' (by omega)
    rw [htake, append_assoc, take_append, hmore]
    rfl

/-- The loop ends as the scan of what it has received says. -/
theorem receive_ends {fuel : Nat} {buffer : List Char} {c : Conn Char} (hfuel : c.stream.length < fuel)
    (hbuffer : buffer.take line.length = line) (hline : '\r' ∉ line) :
    ∃ received, c.stream = received ++ (receive cfg fuel buffer line.length phase r c).conn.stream ∧
      (receive cfg fuel buffer line.length phase r c).conn.last = c.last ∧
      (scan cfg line received phase r).Ends cfg buffer.length (receive cfg fuel buffer line.length phase r c)
        (cutFrom cfg buffer.length fuel line phase r c) := by
  induction fuel generalizing line buffer phase r c with
  | zero => exact absurd hfuel (Nat.not_lt_zero _)
  | succ fuel ih =>
    rw [receive, cutFrom]
    by_cases hfull : buffer.length ≤ line.length
    · rw [if_pos hfull, if_pos hfull]
      refine ⟨[], rfl, rfl, ?_⟩
      exact ⟨rfl, .inl ⟨rfl, hfull⟩⟩
    rw [if_neg hfull, if_neg hfull]
    obtain ⟨answer, c', hrecv⟩ : ∃ answer c', c.recv (buffer.length - line.length) = (answer, c') := ⟨_, _, rfl⟩
    rw [hrecv]
    cases answer with
    | error e =>
      obtain ⟨hstream, hstream', rfl, hlast⟩ := Conn.recv_error hrecv
      refine ⟨[], ?_⟩
      cases hend : c.last <;>
        exact ⟨hstream.trans hstream'.symm, hlast.trans hend, rfl, .inr ⟨by rw [hlast, hend]; rfl, hstream'⟩⟩
    | ok bytes =>
      obtain ⟨hne, hle, hstream, hlast⟩ := Conn.recv_ok (by omega) hrecv
      have hblock : (splice buffer line.length bytes).take (line.length + bytes.length) = line ++ bytes := by
        rw [take_splice (by omega), hbuffer]
      have hlength : (splice buffer line.length bytes).length = buffer.length := length_splice (by omega)
      dsimp only
      rw [hblock, scan_line hline, nil_append]
      cases hscan : scan cfg line bytes phase r with
      | refused code =>
        refine ⟨bytes, hstream, hlast, ?_⟩
        rw [hscan]
        exact ⟨rfl, rfl⟩
      | finished rest r' =>
        obtain ⟨more, hmore, hlast', hends⟩ :=
          afterHeader_ends cfg (overlay rest (splice buffer line.length bytes) rest.length) rest r' c'
        refine ⟨bytes ++ more, ?_, hlast'.trans hlast, ?_⟩
        · rw [hstream, append_assoc, ← hmore]
        · rw [scan_append, hscan]
          exact hends
      | split line' phase' r' =>
        refine ⟨bytes, ?_⟩
        rw [hscan]
        dsimp only
        split
        · exact ⟨hstream, hlast, rfl, .inl rfl⟩
        split_ifs
        · exact ⟨hstream, hlast, rfl, .inr ⟨400, Nat.le_refl _, rfl⟩⟩
        split
        · rename_i hcode
          exact ⟨hstream, hlast, rfl, .inr ⟨_, parseLine_error cfg hcode, rfl⟩⟩
        · exact ⟨hstream, hlast, rfl, .inl rfl⟩
      | waiting line' phase' r' =>
        obtain ⟨hline', hlength'⟩ := waiting_of_scan hline hscan
        have hnext := length_overlay (Nat.le_refl line'.length)
          (by omega : line'.length ≤ (splice buffer line.length bytes).length)
        have hfuel' : c'.stream.length < fuel := by
          rw [hstream, length_append] at hfuel
          have := length_pos_of_ne_nil hne
          omega
        obtain ⟨received, hreceived, hlast', hends⟩ := @ih line' phase' r' _ c' hfuel' (take_overlay _ _) hline'
        refine ⟨bytes ++ received, ?_, hlast'.trans hlast, ?_⟩
        · rw [hstream, append_assoc, ← hreceived]
        rw [scan_append, hscan]
        rw [hnext, hlength] at hends
        exact hends

end

/-! ## Requests -/

variable {cfg : Config} {buffer : List Char} {filename : CStr} {c c₁ c₂ : Conn Char} {p p₁ p₂ : Parsed}

theorem Parsed.status_of_result (h : p₁.result = p₂.result) : p₁.status = p₂.status := by
  unfold Parsed.result at h
  split at h <;> split at h
  · simp_all
  · cases h
  · cases h
  · exact Except.error.inj h

theorem Scan.Ends.cut_eq_false {s : Scan} {size : Nat} {cut : Bool} (h : s.Ends cfg size p cut)
    (hstatus : p.status = .http 200) : cut = false := by
  cases s with
  | refused | waiting | finished => exact h.1
  | split line phase r =>
    rcases h.2 with hoverrun | ⟨code, hcode, herror⟩
    · cases hstatus.symm.trans hoverrun
    · exact absurd (herror.symm.trans hstatus) (http_ne_accepted hcode)

theorem httpdParse_ends (h : httpdParse cfg buffer filename c = p) :
    ∃ received, c.stream = received ++ p.conn.stream ∧ p.conn.last = c.last ∧
      (scan cfg [] received .method (.fresh filename)).Ends cfg buffer.length p
        (cutAtCr cfg buffer.length filename c) := by
  subst h
  exact receive_ends (Nat.lt_succ_self _) rfl not_mem_nil

theorem httpdParse_accepted (h : httpdParse cfg buffer filename c = p) (hstatus : p.status = .http 200) :
    ∃ received rest r, scan cfg [] received .method (.fresh filename) = .finished rest r ∧
      bodyResult cfg rest p.conn.last r = .ok p.request := by
  obtain ⟨received, -, -, hends⟩ := httpdParse_ends h
  cases hscan : scan cfg [] received .method (.fresh filename) with
  | refused code =>
    rw [hscan] at hends
    exact absurd (hends.2.symm.trans hstatus) (http_ne_accepted (refused_of_scan hscan))
  | split line phase r =>
    have hno := hends.cut_eq_false hstatus
    rw [hscan] at hends
    cases hno.symm.trans hends.1
  | waiting line phase r =>
    rw [hscan] at hends
    rcases hends.2 with ⟨hfull, -⟩ | ⟨hlost, -⟩
    · cases hstatus.symm.trans hfull
    · exact absurd (hlost.symm.trans hstatus) (lost_ne_accepted _)
  | finished rest r =>
    rw [hscan] at hends
    have hresult := hends.2 [] nil_prefix
    rw [append_nil, Parsed.result_ok.mpr ⟨hstatus, rfl⟩] at hresult
    exact ⟨received, rest, r, hscan, hresult.symm⟩

/-- What is read is determined by the stream, unless a receive call ends behind a carriage
return. -/
theorem httpdParse_result (hbuffer : 0 < buffer.length)
    (hfit : ∀ l ∈ (splitHeader [] c.stream).1, l.length + 2 ≤ buffer.length)
    (h : httpdParse cfg buffer filename c = p) (hcut : cutAtCr cfg buffer.length filename c = false) :
    p.result = (scan cfg [] c.stream .method (.fresh filename)).result cfg c.last := by
  obtain ⟨received, hstream, hlast, hends⟩ := httpdParse_ends h
  rw [hstream, scan_append, ← hlast]
  cases hscan : scan cfg [] received .method (.fresh filename) with
  | refused code =>
    rw [hscan] at hends
    exact Parsed.result_http (refused_of_scan hscan) hends.2
  | split line phase r =>
    rw [hscan] at hends
    cases hends.1.symm.trans hcut
  | finished rest r =>
    rw [hscan] at hends
    exact hends.2 _ (prefix_refl _)
  | waiting line phase r =>
    rw [hscan] at hends
    rcases hends.2 with ⟨-, hfull⟩ | ⟨hstatus, hempty⟩
    · -- the line has an end that fits
      rw [hstream] at hfit
      rcases splitHeader_long line p.conn.stream with rfl | ⟨l, hl, hle⟩
      · exact absurd hbuffer (Nat.not_lt_of_le hfull)
      · have := hfit l ((splitHeader_waiting (by decide) hscan).2 _ l hl)
        omega
    · rw [hempty, Scan.continue, scan, Parsed.result, hstatus, if_neg (lost_ne_accepted _)]
      rfl

theorem indexed_keeps {r : Request} (hfilename : r.filename.length < cfg.maxFilename) :
    (indexed cfg r).method = r.method ∧ (indexed cfg r).contentLength = r.contentLength ∧
      (indexed cfg r).body = r.body ∧ (indexed cfg r).filename.length < cfg.maxFilename := by
  unfold indexed
  split
  · refine ⟨rfl, rfl, rfl, ?_⟩
    rw [length_take]
    omega
  · exact ⟨rfl, rfl, rfl, hfilename⟩

theorem bodyResult_error {rest : List Char} {last : End} {r : Request} {status : Status}
    (h : bodyResult cfg rest last r = .error status) : ∃ code, 400 ≤ code ∧ status = .http code := by
  unfold bodyResult at h
  split_ifs at h
  · cases h
    exact ⟨_, by decide, rfl⟩
  · cases h
    exact ⟨_, by decide, rfl⟩
  · cases h
    exact ⟨_, by decide, rfl⟩
  · cases h
    exact ⟨_, failure_ge last, rfl⟩

/-- A request that is accepted has a name that fits, and its body if there is one to be read. -/
theorem bodyResult_ok {rest : List Char} {last : End} {r r' : Request} (hpending : Pending cfg .body r)
    (h : bodyResult cfg rest last r = .ok r') :
    r'.filename.length < cfg.maxFilename ∧
      (r'.method = .post ∧ r'.contentLength ≤ rest.length ∧ r'.body = rest.take r'.contentLength ∨
        r'.method ≠ .post ∧ r'.body = []) := by
  have hname := hpending.filename (by decide)
  unfold bodyResult at h
  split_ifs at h with hpost _ _ _ hle
  · cases h
    obtain ⟨hmethod, hlength, hbody, hfilename⟩ := indexed_keeps hname
    have hno : r.method ≠ .post := by
      rintro heq
      simp [hpending.post heq, heq] at hpost
    rw [hmethod, hbody]
    exact ⟨hfilename, .inr ⟨hno, hpending.body⟩⟩
  · cases h
    have hpost' : r.method = .post := by simpa using (not_or.mp hpost).2
    obtain ⟨hmethod, hlength, hbody, hfilename⟩ := @indexed_keeps cfg { r with body := rest.take r.contentLength } hname
    rw [hmethod, hlength, hbody]
    exact ⟨hfilename, .inl ⟨hpost', hle, rfl⟩⟩

/-- A request is read in the same way however it is split, unless a receive call ends between a
carriage return and its line feed. Then it is not accepted. -/
theorem httpdParse_segments (hbuffer : 0 < buffer.length) (hstream : c₁.stream = c₂.stream) (hlast : c₁.last = c₂.last)
    (hfit : ∀ l ∈ (splitHeader [] c₁.stream).1, l.length + 2 ≤ buffer.length)
    (h₁ : httpdParse cfg buffer filename c₁ = p₁) (h₂ : httpdParse cfg buffer filename c₂ = p₂)
    (hcut : cutAtCr cfg buffer.length filename c₁ = false) :
    (cutAtCr cfg buffer.length filename c₂ = false → p₁.status = p₂.status) ∧
      (p₁.status = .http 200 →
        (p₂.status = .http 200 ↔ cutAtCr cfg buffer.length filename c₂ = false) ∧
          (cutAtCr cfg buffer.length filename c₂ = false → p₁.request = p₂.request) ∧
          ((∀ l ∈ (splitHeader [] c₁.stream).1, l.head? ≠ some '\x00') →
            ∃ rest, (splitHeader [] c₁.stream).2 = some rest ∧
              (p₁.request.body = rest.take p₁.request.contentLength ↔
                p₁.request.method = .post ∨ p₁.request.contentLength = 0 ∨ rest = []))) := by
  have hresult := httpdParse_result hbuffer hfit h₁ hcut
  have hsame : cutAtCr cfg buffer.length filename c₂ = false → p₁.result = p₂.result := by
    intro hcut₂
    rw [hresult, httpdParse_result hbuffer (hstream ▸ hfit) h₂ hcut₂, hstream, hlast]
  refine ⟨fun hcut₂ => Parsed.status_of_result (hsame hcut₂), fun hstatus => ⟨⟨?_, ?_⟩, ?_, ?_⟩⟩
  · intro hstatus₂
    obtain ⟨received, -, -, hends⟩ := httpdParse_ends h₂
    exact hends.cut_eq_false hstatus₂
  · intro hcut₂
    rw [← Parsed.status_of_result (hsame hcut₂), hstatus]
  · intro hcut₂
    have hok := Parsed.result_ok.mpr ⟨hstatus, rfl⟩
    rw [hsame hcut₂] at hok
    exact (Parsed.result_ok.mp hok).2.symm
  intro hplain
  rw [Parsed.result_ok.mpr ⟨hstatus, rfl⟩] at hresult
  cases hscan : scan cfg [] c₁.stream .method (.fresh filename) with
  | refused | waiting | split =>
    rw [hscan] at hresult
    cases hresult
  | finished rest r =>
    rw [hscan] at hresult
    obtain ⟨hpending, hrest⟩ := finished_of_scan (by decide) hscan
    refine ⟨rest, hrest hplain, ?_⟩
    rcases (bodyResult_ok (hpending (pending_fresh filename)) hresult.symm).2 with ⟨hpost, -, hbody⟩ | ⟨hno, hbody⟩
    · exact iff_of_true hbody (.inl hpost)
    · rw [hbody, eq_comm, take_eq_nil_iff]
      exact ⟨.inr, fun h => h.resolve_left hno⟩

/-- A server with the default settings that accepts bodies. -/
def sampleConfig : Config where
  maxFilename := 64
  post := true
  maxBody := 4096
  timeout := false
  keepalive := false
  files := .sendfile
  index := none
  canAllocate := fun _ => true

def sampleBuffer : List Char := replicate 128 '\x00'

def wholeRequest : Conn Char := ⟨["POST /a HTTP/1.0\r\nContent-Length: 2\r\n\r\nhi".toList], .closed⟩

/-- Split in the name of a header and before the body. -/
def piecesRequest : Conn Char :=
  ⟨["POST /a HTTP/1.0\r\nCont".toList, "ent-Length: 2\r\n\r\n".toList, "hi".toList], .closed⟩

theorem httpdParse_segments_pieces :
    (httpdParse sampleConfig sampleBuffer [] wholeRequest).status = .http 200 ∧
      (httpdParse sampleConfig sampleBuffer [] wholeRequest).request =
        (httpdParse sampleConfig sampleBuffer [] piecesRequest).request := by
  have hstatus : (httpdParse sampleConfig sampleBuffer [] wholeRequest).status = .http 200 := by decide +kernel
  have hstream : wholeRequest.stream = piecesRequest.stream := by decide
  obtain ⟨-, haccepted⟩ := httpdParse_segments (by decide +kernel) hstream
    (rfl : wholeRequest.last = piecesRequest.last)
    (by decide +kernel) rfl (rfl : httpdParse sampleConfig sampleBuffer [] piecesRequest = _) (by decide +kernel)
  exact ⟨hstatus, (haccepted hstatus).2.1 (by decide +kernel)⟩

/-- Split between a carriage return and its line feed. -/
def cutRequest : Conn Char := ⟨["POST /a HTTP/1.0\r".toList, "\nContent-Length: 2\r\n\r\nhi".toList], .closed⟩

theorem not_segments_cutRequest :
    wholeRequest.stream = cutRequest.stream ∧ wholeRequest.last = cutRequest.last ∧
      (∀ l ∈ (splitHeader [] wholeRequest.stream).1, l.length + 2 ≤ sampleBuffer.length) ∧
      (httpdParse sampleConfig sampleBuffer [] wholeRequest).status = .http 200 ∧
      (httpdParse sampleConfig sampleBuffer [] cutRequest).status = .http 400 := by
  decide +kernel

end Netutils.Webserver
