import LogoCore.PriorityScan
import Mathlib.Data.Fin.Basic
import Mathlib.Data.List.FinRange
import Mathlib.Data.UInt

namespace LogoCore.WiFi

open PriorityScan

/-- The fields that the server's constructor sets. -/
structure WiFiClient where
  socketIndex : Int32
  rxFillLevel : Int32
  rxCurrentIndex : Int32
  deriving DecidableEq

def WiFiClient.construct (socketIndex : UInt8) : WiFiClient := ⟨socketIndex.toUInt32.toInt32, 0, 0⟩

structure WiFiClass where
  handleArray : Fin 8 → Int16
  portArray : Fin 8 → Int16
  typeArray : Fin 8 → Int16
  serverPortArray : Fin 8 → Int16
  clients : Fin 8 → WiFiClient

structure WiFiServer where
  port : UInt16
  lastServicedClient : Int8

/-- What sl_Accept returns and the port it leaves in the address. -/
structure Accepted where
  handle : Int32
  sinPort : UInt16

def slHtons (val : UInt16) : UInt16 := val <<< 8 ||| val >>> 8

namespace WiFiClass

/-- The first free socket; `none` is NO_SOCKET_AVAIL. -/
def getSocket (w : WiFiClass) : Option (Fin 8) := (List.finRange 8).find? fun i => decide (w.handleArray i = -1)

/-- The entry that available() fills in for an accepted connection. -/
def register (w : WiFiClass) (port : UInt16) (i : Fin 8) (a : Accepted) : WiFiClass :=
  { handleArray := Function.update w.handleArray i a.handle.toInt16
    typeArray := Function.update w.typeArray i 0
    portArray := Function.update w.portArray i (slHtons a.sinPort).toInt16
    serverPortArray := Function.update w.serverPortArray i port.toInt16
    clients := Function.update w.clients i (.construct (UInt8.ofNat i.val)) }

def found (w : WiFiClass) (port : UInt16) (i : Fin 8) : Bool :=
  w.handleArray i ≠ -1 ∧ w.typeArray i = 0 ∧ (w.serverPortArray i).toInt = port.toNat

def connected (w : WiFiClass) (port : UInt16) (i : Fin 8) : Bool :=
  w.handleArray i ≠ -1 ∧ w.typeArray i = 0 ∧ (w.serverPortArray i).toUInt16 = port

def foundSockets (w : WiFiClass) (port : UInt16) : List (Fin 8) := (List.finRange 8).filter (w.found port)

def connectedSockets (w : WiFiClass) (port : UInt16) : List (Fin 8) := (List.finRange 8).filter (w.connected port)

theorem toInt_eq_toNat_iff (x : Int16) (port : UInt16) :
    x.toInt = port.toNat ↔ x.toUInt16 = port ∧ port.toNat < 2 ^ 15 := by
  have hint : x.toInt = if 2 * x.toUInt16.toNat < 2 ^ 16 then (x.toUInt16.toNat : ℤ) else x.toUInt16.toNat - 2 ^ 16 :=
    BitVec.toInt_eq_toNat_cond x.toBitVec
  have hlt := x.toUInt16.toNat_lt
  rw [hint, ← UInt16.toNat_inj]
  split <;> omega

theorem found_eq (w : WiFiClass) (port : UInt16) (i : Fin 8) :
    w.found port i = (w.connected port i && decide (port.toNat < 2 ^ 15)) := by
  unfold found connected
  rw [Bool.eq_iff_iff, Bool.and_eq_true]
  simp only [decide_eq_true_iff, toInt_eq_toNat_iff, and_assoc]

theorem foundSockets_eq (w : WiFiClass) (port : UInt16) :
    w.foundSockets port = if port.toNat < 2 ^ 15 then w.connectedSockets port else [] := by
  unfold foundSockets connectedSockets
  split_ifs with hport
  · apply List.filter_congr
    intro i _
    rw [found_eq, decide_eq_true hport, Bool.and_true]
  · apply List.filter_eq_nil_iff.mpr
    intro i _
    rw [found_eq, decide_eq_false hport, Bool.and_false]
    exact Bool.false_ne_true

end WiFiClass

/-- The client that available() returns and the entry of the client table that it is a copy of. -/
structure Reply where
  entry : Option (Fin 8)
  client : WiFiClient
  deriving DecidableEq

namespace WiFiServer

def scan (w : WiFiClass) (s : WiFiServer) : List (Fin 8) → Bool → Option (Fin 8) × Bool
  | [], oneclient => (none, oneclient)
  | i :: rest, oneclient =>
    if w.found s.port i then
      if (i.val : ℤ) = s.lastServicedClient.toInt then scan w s rest true else (some i, oneclient)
    else scan w s rest oneclient

def lastSocket (s : WiFiServer) : Fin 8 :=
  ⟨s.lastServicedClient.toInt.toNat % 8, Nat.mod_lt _ (Nat.succ_pos 7)⟩

def available (s : WiFiServer) (w : WiFiClass) (a : Accepted) : Reply × WiFiServer × WiFiClass :=
  match w.getSocket with
  | none => (⟨none, .construct 255⟩, s, w)
  | some free =>
    let w := if a.handle > 0 then w.register s.port free a else w
    match scan w s (List.finRange 8) false with
    | (some i, _) => (⟨some i, w.clients i⟩, { s with lastServicedClient := Int8.ofNat i.val }, w)
    | (none, true) => (⟨some s.lastSocket, w.clients s.lastSocket⟩, s, w)
    | (none, false) => (⟨none, .construct 255⟩, { s with lastServicedClient := -1 }, w)

def serve : List (WiFiClass × Accepted) → WiFiServer → List Reply
  | [], _ => []
  | (w, a) :: ws, s => (s.available w a).1 :: serve ws (s.available w a).2.1

variable {s : WiFiServer} {w : WiFiClass} {a : Accepted}

def skipped (s : WiFiServer) : Option (Fin 8) :=
  (List.finRange 8).find? fun i => decide ((i.val : ℤ) = s.lastServicedClient.toInt)

theorem skipped_eq_some_iff (i : Fin 8) : s.skipped = some i ↔ (i.val : ℤ) = s.lastServicedClient.toInt := by
  constructor
  · intro h
    simpa using List.find?_some h
  · intro h
    cases hfind : s.skipped with
    | none => exact absurd (decide_eq_true h) (List.find?_eq_none.mp hfind i (List.mem_finRange i))
    | some j =>
      have hj : (j.val : ℤ) = s.lastServicedClient.toInt := by simpa using List.find?_some hfind
      exact congrArg some (Fin.ext (by omega))

theorem skipped_served (s : WiFiServer) (i : Fin 8) :
    skipped { s with lastServicedClient := Int8.ofNat i.val } = some i := by
  have hindex : ∀ i : Fin 8, (i.val : ℤ) = (Int8.ofNat i.val).toInt := by decide
  exact (skipped_eq_some_iff i).mpr (hindex i)

theorem skipped_none (s : WiFiServer) : skipped { s with lastServicedClient := -1 } = none := by
  apply List.find?_eq_none.mpr
  intro i _
  have hminus : (-1 : Int8).toInt = -1 := rfl
  rw [decide_eq_true_iff, hminus]
  omega

theorem lastSocket_eq {i : Fin 8} (h : s.skipped = some i) : s.lastSocket = i := by
  rw [skipped_eq_some_iff] at h
  apply Fin.ext
  change s.lastServicedClient.toInt.toNat % 8 = i.val
  rw [← h, Int.toNat_natCast, Nat.mod_eq_of_lt i.isLt]

theorem scan_eq (sockets : List (Fin 8)) (oneclient : Bool) :
    (scan w s sockets oneclient).1 =
        (sockets.filter (w.found s.port)).find? (fun i => decide (some i ≠ s.skipped)) ∧
      ((scan w s sockets oneclient).1 = none →
        (scan w s sockets oneclient).2 = (oneclient || !(sockets.filter (w.found s.port)).isEmpty)) := by
  induction sockets generalizing oneclient with
  | nil => simp [scan]
  | cons i rest ih =>
    rw [scan]
    by_cases hpasses : w.found s.port i
    · rw [if_pos hpasses, List.filter_cons_of_pos hpasses]
      by_cases hlast : (i.val : ℤ) = s.lastServicedClient.toInt
      · have hskip := (skipped_eq_some_iff i).mpr hlast
        rw [if_pos hlast, List.find?_cons_of_neg (by simp [hskip])]
        refine ⟨(ih true).1, fun hnone => ?_⟩
        rw [(ih true).2 hnone]
        simp
      · have hskip : some i ≠ s.skipped := fun h => hlast ((skipped_eq_some_iff i).mp h.symm)
        rw [if_neg hlast, List.find?_cons_of_pos (by simpa using hskip)]
        exact ⟨rfl, nofun⟩
    · rw [if_neg hpasses, List.filter_cons_of_neg hpasses]
      exact ih oneclient

theorem available_turn (hfree : w.getSocket ≠ none) (hquiet : a.handle ≤ 0) :
    (s.available w a).1.entry = choose (w.foundSockets s.port) s.skipped ∧
      (s.available w a).2.1.skipped = choose (w.foundSockets s.port) s.skipped ∧
      (s.available w a).2.1.port = s.port := by
  obtain ⟨free, hfree⟩ := Option.ne_none_iff_exists'.mp hfree
  have hnone : ¬ a.handle > 0 := Int32.not_lt.mpr hquiet
  obtain ⟨hfound, hone⟩ := scan_eq (w := w) (s := s) (List.finRange 8) false
  change _ = (w.foundSockets s.port).find? _ at hfound
  change _ → _ = !(w.foundSockets s.port).isEmpty at hone
  simp only [available, hfree, if_neg hnone, choose, ← hfound]
  generalize scan w s (List.finRange 8) false = r at *
  match r with
  | (some i, _) => exact ⟨rfl, skipped_served s i, rfl⟩
  | (none, oneclient) =>
    obtain rfl : oneclient = !(w.foundSockets s.port).isEmpty := hone rfl
    cases hsockets : w.foundSockets s.port with
    | nil => exact ⟨rfl, skipped_none s, rfl⟩
    | cons i rest =>
      -- nothing but the skipped socket passed the test
      have hskip : s.skipped = some i := by
        rw [hsockets] at hfound
        have hnot := List.find?_eq_none.mp hfound.symm i List.mem_cons_self
        rw [decide_eq_true_iff, not_not] at hnot
        exact hnot.symm
      exact ⟨congrArg some (lastSocket_eq hskip), hskip, rfl⟩

theorem available_held (h : w.getSocket = none) : (s.available w a).1.entry = none ∧ (s.available w a).2.1 = s := by
  simp only [available, h, and_self]

theorem serve_entries {C : List (Fin 8)} {ws : List (WiFiClass × Accepted)}
    (hfixed : ∀ w ∈ ws, w.1.foundSockets s.port = C) (hquiet : ∀ w ∈ ws, w.2.handle ≤ 0) :
    (serve ws s).map Reply.entry = turns C (ws.map fun w => w.1.getSocket.isSome) s.skipped := by
  induction ws generalizing s with
  | nil => rfl
  | cons w ws ih =>
    obtain ⟨w, a⟩ := w
    rw [List.forall_mem_cons] at hfixed hquiet
    obtain ⟨hfirst, hrest⟩ := hfixed
    rw [serve, List.map_cons, List.map_cons]
    cases hfree : w.getSocket with
    | none =>
      obtain ⟨hentry, hafter⟩ := available_held (s := s) (a := a) hfree
      rw [hentry, hafter, ih hrest hquiet.2]
      rfl
    | some free =>
      have hopen : w.getSocket ≠ none := Option.ne_none_iff_exists'.mpr ⟨free, hfree⟩
      obtain ⟨hentry, hskipped, hport⟩ := available_turn (s := s) hopen hquiet.1
      rw [ih (by rwa [hport]) hquiet.2, hentry, hskipped, hfirst]
      rfl

end WiFiServer

open WiFiServer

/-- Only the two connected sockets with the lowest numbers are ever handed out, so as many calls as there are
clients serve every one exactly when there are no more than two, each call finds a free socket and the port is not
taken for a negative number. -/
theorem wifi_serves_every_client_iff (s : WiFiServer) (C : List (Fin 8)) (hC : C ≠ [])
    (ws : List (WiFiClass × Accepted)) (hfixed : ∀ w ∈ ws, w.1.connectedSockets s.port = C)
    (hquiet : ∀ w ∈ ws, w.2.handle ≤ 0) :
    (∀ r ∈ serve ws s, ∀ i, r.entry = some i → i ∈ C.take 2) ∧
      (ws.length = C.length → ((∀ i ∈ C, ∃ r ∈ serve ws s, r.entry = some i) ↔
        s.port.toNat < 2 ^ 15 ∧ (∀ w ∈ ws, w.1.getSocket ≠ none) ∧ C.length ≤ 2)) := by
  have hfound : ∀ w ∈ ws, w.1.foundSockets s.port = if s.port.toNat < 2 ^ 15 then C else [] := by
    intro w hw
    rw [WiFiClass.foundSockets_eq, hfixed w hw]
  have hentries := serve_entries hfound hquiet
  have hmem (i : Fin 8) : (∃ r ∈ serve ws s, r.entry = some i) ↔ some i ∈ (serve ws s).map Reply.entry := by
    rw [List.mem_map]
  by_cases hport : s.port.toNat < 2 ^ 15
  · rw [if_pos hport] at hentries
    rw [hentries] at hmem
    cases ws with
    | nil => exact ⟨nofun, fun hlen => absurd (List.eq_nil_of_length_eq_zero hlen.symm) hC⟩
    | cons w ws =>
      have hn : C.Nodup := hfixed w List.mem_cons_self ▸ (List.nodup_finRange 8).filter _
      refine ⟨fun r hr i hi => mem_take_of_mem_turns hn ((hmem i).mp ⟨r, hr, hi⟩), fun hlen => ?_⟩
      rw [forall₂_congr fun i _ => hmem i, turns_all_iff hn (by rwa [List.length_map]), List.forall_mem_map,
        and_iff_right hport]
      exact and_congr_left' (forall₂_congr fun w _ => eq_comm.trans Option.isSome_iff_ne_none)
  · have hnobody (i : Fin 8) : ¬ ∃ r ∈ serve ws s, r.entry = some i := by
      rw [hmem, hentries, if_neg hport]
      exact fun h => absurd (mem_take_of_mem_turns List.nodup_nil h) nofun
    refine ⟨fun r hr i hi => absurd ⟨r, hr, hi⟩ (hnobody i), fun _ => iff_of_false ?_ fun h => hport h.1⟩
    obtain ⟨i, rest, rfl⟩ := List.exists_cons_of_ne_nil hC
    exact fun hall => hnobody i (hall i List.mem_cons_self)

def fewClients (n : ℕ) : WiFiClass where
  handleArray i := if i.val ≤ n then Int16.ofNat (i.val + 16) else -1
  portArray i := if i.val = 0 then 80 else if i.val ≤ n then 5000 else -1
  typeArray i := if i.val = 0 then 2 else if i.val ≤ n then 0 else -1
  serverPortArray i := if i.val ≠ 0 ∧ i.val ≤ n then 80 else -1
  clients i := .construct (UInt8.ofNat i.val)

theorem wifi_serves_two_clients :
    (∃ r ∈ serve [(fewClients 2, ⟨0, 0⟩), (fewClients 2, ⟨0, 0⟩)] ⟨80, 0⟩, r.entry = some 1) ∧
      ∃ r ∈ serve [(fewClients 2, ⟨0, 0⟩), (fewClients 2, ⟨0, 0⟩)] ⟨80, 0⟩, r.entry = some 2 := by
  have hall := ((wifi_serves_every_client_iff ⟨80, 0⟩ [1, 2] nofun [(fewClients 2, ⟨0, 0⟩), (fewClients 2, ⟨0, 0⟩)]
    (by decide) (by decide)).2 rfl).mpr (by decide)
  exact ⟨hall 1 (by decide), hall 2 (by decide)⟩

/-- Three calls with three clients leave out the third. -/
theorem wifi_starves_third_client :
    (fewClients 3).connectedSockets 80 = [1, 2, 3] ∧ (fewClients 3).getSocket = some 4 ∧
      (serve [(fewClients 3, ⟨0, 0⟩), (fewClients 3, ⟨0, 0⟩), (fewClients 3, ⟨0, 0⟩)] ⟨80, 0⟩).map Reply.entry =
        [some 1, some 2, some 1] := by
  decide

end LogoCore.WiFi
