/-
The network card: `pci_nic_attach`, `nic_transmit` and `e1000_receive` of
kern/e1000.c, with the card as a process of its own.

Driver and card share two rings of descriptors.  The driver owns the tail of
each, the card the head.  A call of the driver is a sequence of steps (the
test of the descriptor, the copy of the packet, the descriptor, the tail
register), and the card may take a step between any two of them.

* `tx_ring` — what is on the wire is what has been accepted, as long as the
  tail does not run into the head;
* `tx_ring_stuck` — when it does, the card takes the full ring for an empty
  one;
* `rx_ring` — the packets returned are those the card has stored;
* `nicTransmit_reach`, `e1000Receive_reach` — the system calls of
  `Jos.Kern.Syscall` take the rings where these steps do;
* `receive_calls` — runs of system calls and of the card.
-/
import Jos.Kern.Syscall
import Jos.Lib.Ring
import Jos.Lib.Run

namespace Jos

open Function

variable {i j : ℕ}

/-- The rings as `pci_nic_attach` leaves them. -/
def pciNicAttach (n : Nic) : Nic :=
  { n with
    tdt := 0
    txDesc := fun i =>
      if i < ntxdesc then { n.txDesc i with status := (n.txDesc i).status ||| 1 } else n.txDesc i
    rdt := nrxdesc - 1 }

/-! ### Transmission -/

/-- Where the driver is in `nic_transmit`; `tail` is `tail_index`. -/
inductive TxPc where
  /-- outside -/
  | out
  /-- at the test of the length and of the descriptor -/
  | test (pkt : List ℕ)
  /-- at `memmove` -/
  | copy (tail : ℕ) (pkt : List ℕ)
  /-- at the fields of the descriptor -/
  | desc (tail : ℕ) (pkt : List ℕ)
  /-- at `net_reg[E1000_TDT]` -/
  | bump (tail : ℕ) (pkt : List ℕ)

namespace Nic

def txPacket (n : Nic) (i : ℕ) : List ℕ :=
  (List.range (n.txDesc i).length).map (n.txPktsBuf i)

/-- `memmove(&tx_pkts_buf[i], pkt_addr, len)`. -/
def txCopy (n : Nic) (i : ℕ) (pkt : List ℕ) : Nic :=
  { n with txPktsBuf := update n.txPktsBuf i fun k => pkt.getD k (n.txPktsBuf i k) }

def txFill (n : Nic) (i len : ℕ) : Nic :=
  { n with
    txDesc := update n.txDesc i
      { length := len % 2 ^ 16
        cmd := (n.txDesc i).cmd ||| 1 ||| 8
        status := (n.txDesc i).status &&& 0xfe } }

def txDone (n : Nic) (i : ℕ) : Nic :=
  { n with
    txDesc := update n.txDesc i
      { n.txDesc i with status := (n.txDesc i).status ||| 1 } }

end Nic

/-- Driver and card, with the packets that `nic_transmit` has accepted and
those that are on the wire. -/
structure TxSys where
  nic : Nic
  tdh : ℕ
  pc : TxPc
  /-- what the last call returned -/
  ret : ℤ
  accepted : List (List ℕ)
  wire : List (List ℕ)

inductive TxEvent where
  | call (pkt : List ℕ)
  | driver
  | card

namespace TxSys

def init : TxSys := ⟨pciNicAttach {}, 0, .out, 0, [], []⟩

/-- One step of `nic_transmit`. -/
def nicTransmit (s : TxSys) : Option TxSys :=
  match s.pc with
  | .out => none
  | .test pkt =>
    if pkt.length > pktBufSize then some { s with pc := .out, ret := -1 }
    else if (s.nic.txDesc s.nic.tdt).status &&& 1 = 0 then some { s with pc := .out, ret := -1 }
    else some { s with pc := .copy s.nic.tdt pkt }
  | .copy tail pkt => some { s with nic := s.nic.txCopy tail pkt, pc := .desc tail pkt }
  | .desc tail pkt => some { s with nic := s.nic.txFill tail pkt.length, pc := .bump tail pkt }
  | .bump tail pkt =>
    some { s with
      nic := { s.nic with tdt := (tail + 1) % ntxdesc }
      pc := .out
      ret := 0
      accepted := s.accepted ++ [pkt] }

/-- The card sends the packet at its head. -/
def send (s : TxSys) : Option TxSys :=
  if s.tdh = s.nic.tdt then none
  else some { s with
    nic := s.nic.txDone s.tdh
    tdh := (s.tdh + 1) % ntxdesc
    wire := s.wire ++ [s.nic.txPacket s.tdh] }

def step (s : TxSys) : TxEvent → Option TxSys
  | .call pkt =>
    match s.pc with
    | .out => some { s with pc := .test pkt }
    | _ => none
  | .driver => s.nicTransmit
  | .card => s.send

end TxSys

/-- The tail does not run into the head. -/
def TxCond (s : TxSys) : TxEvent → Prop
  | .driver => ∀ tail pkt, s.pc = .bump tail pkt → (tail + 1) % ntxdesc ≠ s.tdh
  | _ => True

/-- What the place in `nic_transmit` says. -/
def TxSys.PcOk (s : TxSys) : TxPc → Prop
  | .out => True
  | .test _ => True
  | .copy tail pkt => tail = s.nic.tdt ∧ pkt.length ≤ pktBufSize
  | .desc tail pkt => tail = s.nic.tdt ∧ pkt.length ≤ pktBufSize ∧
      (List.range pkt.length).map (s.nic.txPktsBuf tail) = pkt
  | .bump tail pkt => tail = s.nic.tdt ∧ s.nic.txPacket tail = pkt

/-- The packets `pending` are in the ring, from the head on. -/
structure TxInv (s : TxSys) (pending : List (List ℕ)) : Prop where
  sent : s.accepted = s.wire ++ pending
  ring : Ring.Holds ntxdesc s.nic.txPacket s.tdh pending
  room : pending.length < ntxdesc
  head : s.tdh < ntxdesc
  tail : s.nic.tdt = (s.tdh + pending.length) % ntxdesc
  pc : s.PcOk s.pc

namespace Nic

variable (n : Nic)

theorem txPacket_txCopy (pkt : List ℕ) (h : j ≠ i) : (n.txCopy i pkt).txPacket j = n.txPacket j := by
  simp only [txPacket, txCopy, update_of_ne h]

theorem txPacket_txFill (len : ℕ) (h : j ≠ i) : (n.txFill i len).txPacket j = n.txPacket j := by
  simp only [txPacket, txFill, update_of_ne h]

theorem txPacket_txFill_self (i : ℕ) {len : ℕ} (h : len ≤ pktBufSize) :
    (n.txFill i len).txPacket i = (List.range len).map (n.txPktsBuf i) := by
  have hlen : len % 2 ^ 16 = len := by
    unfold pktBufSize at h
    omega
  simp only [txPacket, txFill, update_self, hlen]

theorem txPacket_txDone (i j : ℕ) : (n.txDone i).txPacket j = n.txPacket j := by
  by_cases h : j = i
  · subst h
    simp only [txPacket, txDone, update_self]
  · simp only [txPacket, txDone, update_of_ne h]

theorem map_txCopy (i : ℕ) (pkt : List ℕ) :
    (List.range pkt.length).map ((n.txCopy i pkt).txPktsBuf i) = pkt := by
  refine List.ext_getElem (by simp) fun k hk hk' => ?_
  simp [txCopy, hk']

end Nic

namespace TxInv

variable {s s' : TxSys} {pending : List (List ℕ)}

theorem init : TxInv TxSys.init [] :=
  ⟨rfl, .nil _ _ _, by decide, by decide, rfl, trivial⟩

theorem idle (h : TxInv s pending) (heq : s.tdh = s.nic.tdt) : pending = [] := by
  have hroom := h.room
  have htail := h.tail
  rw [← heq] at htail
  refine List.eq_nil_of_length_eq_zero ?_
  by_contra hpos
  exact Ring.mod_ne (Nat.lt_add_of_pos_right (Nat.pos_of_ne_zero hpos)) (by omega)
    ((Nat.mod_eq_of_lt h.head).trans htail)

theorem nicTransmit (h : TxInv s pending) (hcond : TxCond s .driver)
    (hs : s.nicTransmit = some s') : ∃ pending, TxInv s' pending := by
  have hpc := h.pc
  unfold TxSys.nicTransmit at hs
  cases hp : s.pc with
  | out =>
    rw [hp] at hs
    cases hs
  | test pkt =>
    rw [hp] at hs
    dsimp only at hs
    split at hs
    case isTrue =>
      cases hs
      exact ⟨pending, h.sent, h.ring, h.room, h.head, h.tail, trivial⟩
    case isFalse hlen =>
      split at hs
      case isTrue =>
        cases hs
        exact ⟨pending, h.sent, h.ring, h.room, h.head, h.tail, trivial⟩
      case isFalse =>
        cases hs
        exact ⟨pending, h.sent, h.ring, h.room, h.head, h.tail, rfl, not_lt.1 hlen⟩
  | copy tail pkt =>
    rw [hp] at hs hpc
    cases hs
    obtain ⟨rfl, hlen⟩ := hpc
    refine ⟨pending, h.sent, ?_, h.room, h.head, h.tail, rfl, hlen, s.nic.map_txCopy _ _⟩
    exact h.ring.frame h.room fun i hi => s.nic.txPacket_txCopy _ (h.tail ▸ hi)
  | desc tail pkt =>
    rw [hp] at hs hpc
    cases hs
    obtain ⟨rfl, hlen, hbuf⟩ := hpc
    refine ⟨pending, h.sent, ?_, h.room, h.head, h.tail, rfl, ?_⟩
    · exact h.ring.frame h.room fun i hi => s.nic.txPacket_txFill _ (h.tail ▸ hi)
    · exact (s.nic.txPacket_txFill_self _ hlen).trans hbuf
  | bump tail pkt =>
    have hfree := hcond tail pkt hp
    rw [hp] at hs hpc
    cases hs
    obtain ⟨rfl, hpkt⟩ := hpc
    have hroom := h.room
    have htail := h.tail
    rw [htail] at hpkt hfree
    refine ⟨pending ++ [pkt], ?_, h.ring.snoc h.room hpkt, ?_, h.head, ?_, trivial⟩
    · show s.accepted ++ [pkt] = s.wire ++ (pending ++ [pkt])
      rw [h.sent, List.append_assoc]
    · -- one more packet than there may be would put the tail at the head
      rw [List.length_append, List.length_singleton]
      by_contra hfull
      have hlen : pending.length + 1 = ntxdesc := by omega
      refine hfree ?_
      rw [Nat.mod_add_mod, Nat.add_assoc, hlen, Nat.add_mod_right, Nat.mod_eq_of_lt h.head]
    · show (s.nic.tdt + 1) % ntxdesc = _
      rw [htail, Nat.mod_add_mod, List.length_append, List.length_singleton, Nat.add_assoc]

theorem send (h : TxInv s pending) (hs : s.send = some s') : ∃ pending, TxInv s' pending := by
  unfold TxSys.send at hs
  split at hs
  case isTrue => cases hs
  case isFalse hne =>
    cases hs
    have hring := h.ring
    have htail := h.tail
    have hhead := Nat.mod_eq_of_lt h.head
    cases pending with
    | nil => exact absurd (htail.trans hhead).symm hne
    | cons pkt pending =>
      have hpkt : s.nic.txPacket s.tdh = pkt := hhead ▸ hring.head
      have hpacket : (s.nic.txDone s.tdh).txPacket = s.nic.txPacket :=
        funext (s.nic.txPacket_txDone s.tdh)
      refine ⟨pending, ?_, ?_, ?_, Nat.mod_lt _ (by decide), ?_, ?_⟩
      · show s.accepted = (s.wire ++ [s.nic.txPacket s.tdh]) ++ pending
        rw [h.sent, hpkt, List.append_assoc, List.singleton_append]
      · show Ring.Holds ntxdesc (s.nic.txDone s.tdh).txPacket _ pending
        rw [hpacket]
        exact hring.tail.mod
      · have hroom := h.room
        rw [List.length_cons] at hroom
        omega
      · show s.nic.tdt = _
        rw [htail, List.length_cons, Nat.mod_add_mod, Nat.add_assoc, Nat.add_comm 1]
      · -- the card touches no packet and not the tail
        have hpc := h.pc
        revert hpc
        show s.PcOk s.pc → TxSys.PcOk _ s.pc
        cases s.pc with
        | bump tail pkt' =>
          rintro ⟨htail', hpkt'⟩
          exact ⟨htail', (s.nic.txPacket_txDone _ _).trans hpkt'⟩
        | _ => exact fun hpc => hpc

theorem step (h : TxInv s pending) {e : TxEvent} (hcond : TxCond s e)
    (hs : s.step e = some s') : ∃ pending, TxInv s' pending := by
  cases e with
  | call pkt =>
    unfold TxSys.step at hs
    dsimp only at hs
    split at hs
    · cases hs
      exact ⟨pending, h.sent, h.ring, h.room, h.head, h.tail, trivial⟩
    · cases hs
  | driver => exact h.nicTransmit hcond hs
  | card => exact h.send hs

end TxInv

/-- What is on the wire is what has been accepted, in order; when the card has
nothing to do it is all of it; and until a packet is on the wire, its
descriptor and its buffer are left alone. -/
theorem tx_ring {s : TxSys} (hrun : Sys.Reach TxSys.step TxCond TxSys.init s) :
    s.wire <+: s.accepted ∧ (s.tdh = s.nic.tdt → s.wire = s.accepted) ∧
    ∀ k pkt, s.accepted[s.wire.length + k]? = some pkt →
      s.nic.txPacket ((s.tdh + k) % ntxdesc) = pkt := by
  obtain ⟨pending, h⟩ := hrun.inv (I := fun s => ∃ pending, TxInv s pending)
    ⟨[], TxInv.init⟩ fun _ _ _ ⟨_, h⟩ hcond hs => h.step hcond hs
  rw [h.sent]
  refine ⟨List.prefix_append _ _, fun hidle => ?_, fun k pkt hk => ?_⟩
  · rw [h.idle hidle, List.append_nil]
  · rw [List.getElem?_append_right (Nat.le_add_right _ _), Nat.add_sub_cancel_left] at hk
    exact h.ring.cell k pkt hk

/-- The ring while `nic_transmit` is about to move the tail. -/
def Nic.txQueued (n : Nic) (pkt : List ℕ) : Nic := (n.txCopy n.tdt pkt).txFill n.tdt pkt.length

theorem TxSys.reach_call {ok : TxSys → TxEvent → Prop} {s₀ s : TxSys} (pkt : List ℕ)
    (hok : ∀ s l, TxCond s l → ok s l) (hs : Sys.Reach TxSys.step ok s₀ s) (hpc : s.pc = .out)
    (hlen : pkt.length ≤ pktBufSize) (hdd : (s.nic.txDesc s.nic.tdt).status &&& 1 ≠ 0)
    (hbump : ok { s with nic := s.nic.txQueued pkt, pc := .bump s.nic.tdt pkt } .driver) :
    Sys.Reach TxSys.step ok s₀
      { s with
        nic := { s.nic.txQueued pkt with tdt := (s.nic.tdt + 1) % ntxdesc }
        ret := 0
        accepted := s.accepted ++ [pkt] } := by
  have hcall : s.step (.call pkt) = some { s with pc := .test pkt } := by
    simp only [TxSys.step, hpc]
  have htest : { s with pc := .test pkt }.step .driver =
      some { s with pc := .copy s.nic.tdt pkt } := by
    simp only [TxSys.step, TxSys.nicTransmit, if_neg hlen.not_gt, if_neg hdd]
  have hcond : ∀ t : TxSys, (∀ tail pkt, t.pc ≠ .bump tail pkt) → ok t .driver :=
    fun t ht => hok t .driver fun tail pkt hp => absurd hp (ht tail pkt)
  have r₂ := (hs.step (hok s (.call pkt) trivial) hcall).step (hcond _ nofun) htest
  have r₃ : Sys.Reach TxSys.step ok s₀
      { s with nic := s.nic.txCopy s.nic.tdt pkt, pc := .desc s.nic.tdt pkt } :=
    r₂.step (hcond _ nofun) rfl
  have r₄ : Sys.Reach TxSys.step ok s₀
      { s with nic := s.nic.txQueued pkt, pc := .bump s.nic.tdt pkt } :=
    r₃.step (hcond _ nofun) rfl
  have hout : { s with
      nic := s.nic.txQueued pkt, pc := .bump s.nic.tdt pkt }.step .driver =
      some { s with
        nic := { s.nic.txQueued pkt with tdt := (s.nic.tdt + 1) % ntxdesc }
        ret := 0
        accepted := s.accepted ++ [pkt] } := by
    simp only [TxSys.step, TxSys.nicTransmit, hpc]
  exact r₄.step hbump hout

theorem Nic.txCopy_nil (n : Nic) (i : ℕ) : n.txCopy i [] = n := by
  simp [txCopy]

theorem Nic.txCopy_snoc (n : Nic) (i : ℕ) (bytes : List ℕ) (b : ℕ) :
    n.txCopy i (bytes ++ [b]) =
      { n.txCopy i bytes with
        txPktsBuf := update (n.txCopy i bytes).txPktsBuf i
          (update ((n.txCopy i bytes).txPktsBuf i) bytes.length b) } := by
  simp only [txCopy, update_idem, update_self]
  congr 2
  funext k
  rcases Nat.lt_trichotomy k bytes.length with hk | rfl | hk
  · rw [update_of_ne hk.ne, List.getD_append _ _ _ _ hk]
  · simp
  · rw [update_of_ne hk.ne', List.getD_eq_default _ _ (by simp; omega),
      List.getD_eq_default _ _ hk.le]

theorem nicTransmit_nic (s : Kern) (cr3 pkt len : ℕ) :
    Prog.wp (nicTransmit cr3 pkt len)
      (fun r s' => r = -1 ∧ s'.nic = s.nic ∨
        r = 0 ∧ ∃ bytes : List ℕ, bytes.length ≤ pktBufSize ∧
          (s.nic.txDesc s.nic.tdt).status &&& 1 ≠ 0 ∧
          s'.nic = { s.nic.txQueued bytes with tdt := (s.nic.tdt + 1) % ntxdesc })
      (fun _ _ => True) s := by
  rw [Jos.nicTransmit, Prog.wp_ite]
  refine ⟨fun _ => .inl ⟨rfl, rfl⟩, fun hlen => ?_⟩
  rw [Prog.wp_bind, Prog.wp_get, Prog.wp_ite]
  refine ⟨fun _ => .inl ⟨rfl, rfl⟩, fun hdd => ?_⟩
  rw [Prog.wp_bind]
  -- after `k` rounds the first `k` bytes are in the buffer
  refine (Prog.wp_forFrom (n := len) (R := fun _ _ => True) (fun k s' => ∃ bytes : List ℕ, bytes.length = k ∧
      s'.nic = s.nic.txCopy s.nic.tdt bytes) ⟨[], rfl, (s.nic.txCopy_nil _).symm⟩ ?_).mono ?_
    fun _ _ _ => trivial
  · rintro k t - - ⟨bytes, rfl, ht⟩
    rw [Prog.wp_bind, liftMm, Prog.wp_zoom]
    refine Prog.wp_iff.2 ⟨fun b m _ => ⟨bytes ++ [b], by simp, ?_⟩, fun _ _ _ => trivial⟩
    rw [Nic.txCopy_snoc, ← ht]
  · rintro - t ⟨bytes, hbytes, ht⟩
    rw [List.length_nil, Nat.zero_add] at hbytes
    refine .inr ⟨rfl, bytes, by omega, hdd, ?_⟩
    simp only [ht, Nic.txQueued, Nic.txFill, hbytes]

theorem nicTransmit_reach {s s' : Kern} {cr3 pkt len : ℕ} {r : ℤ} (t : TxSys)
    (hcall : nicTransmit cr3 pkt len s = .ret r s') (hnic : t.nic = s.nic) (hpc : t.pc = .out) :
    ∃ t', Sys.Reach TxSys.step (fun _ _ => True) t t' ∧ t'.nic = s'.nic ∧ t'.pc = .out ∧
      (r = 0 ↔ t'.accepted ≠ t.accepted) := by
  obtain ⟨rfl, hs'⟩ | ⟨rfl, bytes, hlen, hdd, hs'⟩ := (nicTransmit_nic s cr3 pkt len).ret hcall
  · exact ⟨t, .refl, hnic.trans hs'.symm, hpc, by simp⟩
  · rw [← hnic] at hdd hs'
    exact ⟨_, TxSys.reach_call bytes (fun _ _ _ => trivial) .refl hpc hlen hdd trivial, hs'.symm, hpc,
      by simp⟩

/-- One packet, sent. -/
theorem tx_ring_one : ∃ s, Sys.Reach TxSys.step TxCond TxSys.init s ∧ s.ret = 0 ∧
    s.tdh = s.nic.tdt ∧ s.wire = s.accepted ∧ s.accepted = [[7, 8]] := by
  have hinit : Sys.Reach TxSys.step TxCond TxSys.init TxSys.init := .refl
  have hcall := TxSys.reach_call [7, 8] (fun _ _ h => h) hinit rfl (by decide) (by decide)
    fun tail pkt hp => by
      cases hp
      decide
  have hsent := hcall.step (show TxCond _ .card from trivial) rfl
  exact ⟨_, hsent, rfl, rfl, (tx_ring hsent).2.1 rfl, rfl⟩

namespace Demo

/-- The driver has accepted `n` packets, and the card has not moved. -/
structure TxFilled (s : TxSys) (n : ℕ) : Prop where
  pc : s.pc = .out
  tdh : s.tdh = 0
  tdt : s.nic.tdt = n % ntxdesc
  dd : ∀ i, n ≤ i → i < ntxdesc → (s.nic.txDesc i).status &&& 1 ≠ 0
  wire : s.wire = []
  accepted : s.accepted.length = n

theorem reach_txFilled (n : ℕ) (hn : n ≤ ntxdesc) :
    ∃ s, Sys.Reach TxSys.step (fun _ _ => True) TxSys.init s ∧ TxFilled s n := by
  induction n with
  | zero =>
    refine ⟨_, .refl, rfl, rfl, rfl, fun i _ hi => ?_, rfl, rfl⟩
    simp [TxSys.init, pciNicAttach, hi]
  | succ n ih =>
    obtain ⟨s, hs, h⟩ := ih (by omega)
    have htdt : s.nic.tdt = n := h.tdt.trans (Nat.mod_eq_of_lt (by omega))
    refine ⟨_, TxSys.reach_call [] (fun _ _ _ => trivial) hs h.pc (Nat.zero_le _)
      (h.dd _ htdt.ge (by omega)) trivial, h.pc, h.tdh, ?_, fun i hi hi' => ?_, h.wire, ?_⟩
    · show (s.nic.tdt + 1) % ntxdesc = _
      rw [htdt]
    · have hne : i ≠ s.nic.tdt := by omega
      simp only [Nic.txQueued, Nic.txFill, Nic.txCopy, update_of_ne hne]
      exact h.dd i (by omega) hi'
    · show (s.accepted ++ [[]]).length = _
      rw [List.length_append, h.accepted, List.length_singleton]

end Demo

/-- The driver is faster than the card: with forty packets in the ring the tail
is at the head, and the card does not move any more. -/
theorem tx_ring_stuck : ∃ s, Sys.Reach TxSys.step (fun _ _ => True) TxSys.init s ∧
    s.tdh = s.nic.tdt ∧ s.send = none ∧ s.accepted.length = 40 ∧ s.wire = [] := by
  obtain ⟨s, hs, h⟩ := Demo.reach_txFilled ntxdesc le_rfl
  have hidle : s.tdh = s.nic.tdt := by rw [h.tdh, h.tdt, Nat.mod_self]
  exact ⟨s, hs, hidle, if_pos hidle, h.accepted, h.wire⟩

/-! ### Reception -/

/-- Where the driver is in `e1000_receive`; `tail` is `tail_idx`. -/
inductive RxPc where
  /-- outside -/
  | out
  /-- at the tests of the status -/
  | test
  /-- at `*length` and `memmove` -/
  | copy (tail : ℕ)
  /-- at the status, with the packet copied -/
  | clear (tail : ℕ) (pkt : List ℕ)
  /-- at `net_reg[E1000_RDT]` -/
  | bump (tail : ℕ) (pkt : List ℕ)

namespace Nic

def rxPacket (n : Nic) (i : ℕ) : List ℕ := (List.range (n.rxq i).length).map (n.rxPkts i)

/-- The card fills descriptor `i`, with DD and EOP set. -/
def rxStore (n : Nic) (i : ℕ) (pkt : List ℕ) : Nic :=
  { n with
    rxPkts := update n.rxPkts i fun k => pkt.getD k (n.rxPkts i k)
    rxq := update n.rxq i
      { length := pkt.length % 2 ^ 16, status := (n.rxq i).status ||| 3 } }

def rxDone (n : Nic) (i : ℕ) : Prop :=
  (n.rxq i).status &&& 1 ≠ 0 ∧ (n.rxq i).status &&& 2 ≠ 0

/-- `rxq[i].status = 0`. -/
def rxClear (n : Nic) (i : ℕ) : Nic :=
  { n with rxq := update n.rxq i { n.rxq i with status := 0 } }

end Nic

/-- Driver and card, with the packets that the card has stored and those that
`e1000_receive` has returned. -/
structure RxSys where
  nic : Nic
  rdh : ℕ
  pc : RxPc
  /-- what the last call returned -/
  ret : ℤ
  stored : List (List ℕ)
  returned : List (List ℕ)

inductive RxEvent where
  | call
  | driver
  | card (pkt : List ℕ)

namespace RxSys

def init : RxSys := ⟨pciNicAttach {}, 0, .out, 0, [], []⟩

/-- One step of `e1000_receive`. -/
def e1000Receive (s : RxSys) : Option RxSys :=
  match s.pc with
  | .out => none
  | .test =>
    let tail := (s.nic.rdt + 1) % nrxdesc
    if (s.nic.rxq tail).status &&& 1 = 0 then some { s with pc := .out, ret := -1 }
    else if (s.nic.rxq tail).status &&& 2 = 0 then some { s with pc := .out, ret := -1 }
    else some { s with pc := .copy tail }
  | .copy tail => some { s with pc := .clear tail (s.nic.rxPacket tail) }
  | .clear tail pkt => some { s with nic := s.nic.rxClear tail, pc := .bump tail pkt }
  | .bump tail pkt =>
    some { s with
      nic := { s.nic with rdt := tail }
      pc := .out
      ret := 0
      returned := s.returned ++ [pkt] }

/-- The card stores the packet at its head. -/
def store (s : RxSys) (pkt : List ℕ) : Option RxSys :=
  if s.rdh = s.nic.rdt ∨ pktBufSize < pkt.length then none
  else some { s with
    nic := s.nic.rxStore s.rdh pkt
    rdh := (s.rdh + 1) % nrxdesc
    stored := s.stored ++ [pkt] }

def step (s : RxSys) : RxEvent → Option RxSys
  | .call =>
    match s.pc with
    | .out => some { s with pc := .test }
    | _ => none
  | .driver => s.e1000Receive
  | .card pkt => s.store pkt

end RxSys

/-- The packets `pending` are in the ring, from the one behind the tail on,
and their descriptors are the only ones that are done. -/
structure RxInv (s : RxSys) (pending : List (List ℕ)) : Prop where
  got : s.stored = s.returned ++ pending
  ring : Ring.Holds nrxdesc s.nic.rxPacket (s.nic.rdt + 1) pending
  room : pending.length < nrxdesc
  tail : s.nic.rdt < nrxdesc
  head : s.rdh = (s.nic.rdt + 1 + pending.length) % nrxdesc
  done : ∀ k < pending.length, (∀ tail pkt, s.pc = .bump tail pkt → k ≠ 0) →
    s.nic.rxDone ((s.nic.rdt + 1 + k) % nrxdesc)
  free : ∀ i, (∀ k < pending.length, i ≠ (s.nic.rdt + 1 + k) % nrxdesc) →
    (s.nic.rxq i).status &&& 1 = 0
  pc : match s.pc with
    | .out => True
    | .test => True
    | .copy tail => tail = (s.nic.rdt + 1) % nrxdesc ∧ pending ≠ []
    | .clear tail pkt => tail = (s.nic.rdt + 1) % nrxdesc ∧ pending.head? = some pkt
    | .bump tail pkt => tail = (s.nic.rdt + 1) % nrxdesc ∧ pending.head? = some pkt ∧
        (s.nic.rxq tail).status = 0

namespace Nic

variable (n : Nic)

theorem rxPacket_rxStore (pkt : List ℕ) (h : j ≠ i) : (n.rxStore i pkt).rxPacket j = n.rxPacket j := by
  simp only [rxPacket, rxStore, update_of_ne h]

theorem rxPacket_rxStore_self (i : ℕ) {pkt : List ℕ} (h : pkt.length ≤ pktBufSize) :
    (n.rxStore i pkt).rxPacket i = pkt := by
  have hlen : pkt.length % 2 ^ 16 = pkt.length := by
    unfold pktBufSize at h
    omega
  simp only [rxPacket, rxStore, update_self, hlen]
  refine List.ext_getElem (by simp) fun k hk hk' => ?_
  simp [hk']

theorem rxPacket_rxClear (i j : ℕ) : (n.rxClear i).rxPacket j = n.rxPacket j := by
  by_cases h : j = i
  · subst h
    simp only [rxPacket, rxClear, update_self]
  · simp only [rxPacket, rxClear, update_of_ne h]

theorem status_rxStore (pkt : List ℕ) (h : j ≠ i) :
    ((n.rxStore i pkt).rxq j).status = (n.rxq j).status := by
  simp only [rxStore, update_of_ne h]

theorem rxDone_rxClear (h : j ≠ i) : (n.rxClear i).rxDone j ↔ n.rxDone j := by
  simp only [rxDone, rxClear, update_of_ne h]

theorem rxDone_rxStore (pkt : List ℕ) (h : j ≠ i) : (n.rxStore i pkt).rxDone j ↔ n.rxDone j := by
  simp only [rxDone, rxStore, update_of_ne h]

theorem rxDone_rxStore_self (i : ℕ) (pkt : List ℕ) : (n.rxStore i pkt).rxDone i := by
  simp only [rxDone, rxStore, update_self]
  constructor
  · intro h
    have := congrArg (Nat.testBit · 0) h
    simp at this
  · intro h
    have := congrArg (Nat.testBit · 1) h
    simp only [Nat.testBit_and, Nat.testBit_or] at this
    simp [show Nat.testBit 3 1 = true from rfl, show Nat.testBit 2 1 = true from rfl] at this

end Nic

namespace RxInv

variable {s s' : RxSys} {pending : List (List ℕ)}

theorem init : RxInv RxSys.init [] :=
  ⟨rfl, .nil _ _ _, by decide, by decide, rfl, nofun, fun _ _ => Nat.zero_and _, trivial⟩

theorem done_all (h : RxInv s pending) (hpc : ∀ tail pkt, s.pc ≠ .bump tail pkt) :
    ∀ k < pending.length, s.nic.rxDone ((s.nic.rdt + 1 + k) % nrxdesc) :=
  fun k hk => h.done k hk fun tail pkt hp => absurd hp (hpc tail pkt)

theorem test (h : RxInv s pending) (hpc : s.pc = .test) :
    (s.nic.rxDone ((s.nic.rdt + 1) % nrxdesc) ∧ pending ≠ []) ∨
    ((s.nic.rxq ((s.nic.rdt + 1) % nrxdesc)).status &&& 1 = 0 ∧ pending = []) := by
  cases pending with
  | nil => exact .inr ⟨h.free _ nofun, rfl⟩
  | cons pkt pending =>
    have hdone := h.done_all (fun _ _ => by rw [hpc]; nofun) 0 (Nat.succ_pos _)
    exact .inl ⟨hdone, List.cons_ne_nil _ _⟩

theorem e1000Receive (h : RxInv s pending) (hs : s.e1000Receive = some s') :
    ∃ pending, RxInv s' pending := by
  have hpc := h.pc
  have hall := h.done_all
  unfold RxSys.e1000Receive at hs
  cases hp : s.pc with
  | out =>
    rw [hp] at hs
    cases hs
  | test =>
    have htest := h.test hp
    rw [hp] at hs hall
    dsimp only at hs
    obtain ⟨⟨h₁, h₂⟩, hne⟩ | ⟨h₁, -⟩ := htest
    · rw [if_neg h₁, if_neg h₂] at hs
      cases hs
      exact ⟨pending, h.got, h.ring, h.room, h.tail, h.head, fun k hk _ => hall nofun k hk, h.free,
        rfl, hne⟩
    · rw [if_pos h₁] at hs
      cases hs
      exact ⟨pending, h.got, h.ring, h.room, h.tail, h.head, fun k hk _ => hall nofun k hk, h.free,
        trivial⟩
  | copy tail =>
    rw [hp] at hs hpc hall
    cases hs
    obtain ⟨rfl, hne⟩ := hpc
    refine ⟨pending, h.got, h.ring, h.room, h.tail, h.head, fun k hk _ => hall nofun k hk, h.free,
      rfl, ?_⟩
    cases pending with
    | nil => exact absurd rfl hne
    | cons pkt pending => exact congrArg some h.ring.head.symm
  | clear tail pkt =>
    rw [hp] at hs hpc hall
    cases hs
    obtain ⟨rfl, hhead⟩ := hpc
    have hpacket : (s.nic.rxClear ((s.nic.rdt + 1) % nrxdesc)).rxPacket = s.nic.rxPacket :=
      funext (s.nic.rxPacket_rxClear _)
    refine ⟨pending, h.got, ?_, h.room, h.tail, h.head, fun k hk hk' => ?_, fun i hi => ?_,
      rfl, hhead, ?_⟩
    · show Ring.Holds nrxdesc (s.nic.rxClear _).rxPacket _ _
      rw [hpacket]
      exact h.ring
    · have hroom := h.room
      have hpos := hk' _ _ rfl
      have hne : (s.nic.rdt + 1 + k) % nrxdesc ≠ (s.nic.rdt + 1) % nrxdesc :=
        (Ring.mod_ne (by omega) (by omega)).symm
      exact (s.nic.rxDone_rxClear hne).2 (hall nofun k hk)
    · by_cases hi' : i = (s.nic.rdt + 1) % nrxdesc
      · subst hi'
        simp only [Nic.rxClear, update_self, Nat.zero_and]
      · simp only [Nic.rxClear, update_of_ne hi']
        exact h.free i hi
    · simp only [Nic.rxClear, update_self]
  | bump tail pkt =>
    rw [hp] at hs hpc
    cases hs
    obtain ⟨rfl, hhead, hzero⟩ := hpc
    cases pending with
    | nil => cases hhead
    | cons pkt' pending =>
      cases hhead
      have hroom := h.room
      rw [List.length_cons] at hroom
      -- the tail is one further, and so are the packets
      have hnext : ∀ k, ((s.nic.rdt + 1) % nrxdesc + 1 + k) % nrxdesc =
          (s.nic.rdt + 1 + (k + 1)) % nrxdesc := by
        intro k
        rw [Nat.add_assoc, Nat.mod_add_mod, Nat.add_comm 1 k]
      refine ⟨pending, ?_, ?_, by omega, Nat.mod_lt _ (by decide), ?_, fun k hk _ => ?_,
        fun i hi => ?_, trivial⟩
      · show s.stored = (s.returned ++ [pkt]) ++ pending
        rw [h.got, List.append_assoc, List.singleton_append]
      · refine ⟨by omega, fun k y hk => ?_⟩
        show s.nic.rxPacket _ = y
        rw [hnext]
        exact h.ring.cell (k + 1) y hk
      · show s.rdh = _
        rw [h.head, List.length_cons, hnext]
      · show s.nic.rxDone _
        rw [hnext]
        exact h.done (k + 1) (Nat.succ_lt_succ hk) fun _ _ _ => Nat.succ_ne_zero k
      · show (s.nic.rxq i).status &&& 1 = 0
        by_cases hi' : i = (s.nic.rdt + 1) % nrxdesc
        · rw [hi', hzero, Nat.zero_and]
        · refine h.free i fun k hk heq => ?_
          cases k with
          | zero => exact hi' heq
          | succ k => exact hi k (Nat.lt_of_succ_lt_succ hk) (heq.trans (hnext k).symm)

theorem store (h : RxInv s pending) {pkt : List ℕ} (hs : s.store pkt = some s') :
    ∃ pending, RxInv s' pending := by
  unfold RxSys.store at hs
  split at hs
  case isTrue => cases hs
  case isFalse hcan =>
    cases hs
    obtain ⟨hne, hlen⟩ := not_or.1 hcan
    have hroom := h.room
    have hhead := h.head
    -- with the head in front of the tail there is room for one more
    have hlt : pending.length + 1 < nrxdesc := by
      by_contra hfull
      have hlast : pending.length + 1 = nrxdesc := by omega
      refine hne ?_
      rw [hhead, Nat.add_assoc, Nat.add_comm 1, hlast, Nat.add_mod_right, Nat.mod_eq_of_lt h.tail]
    have hbehind : ∀ k < pending.length, (s.nic.rdt + 1 + k) % nrxdesc ≠ s.rdh := by
      intro k hk
      rw [hhead]
      exact Ring.mod_ne (by omega) (by omega)
    refine ⟨pending ++ [pkt], ?_, ?_, ?_, h.tail, ?_, fun k hk hk' => ?_, fun i hi => ?_, ?_⟩
    · show s.stored ++ [pkt] = s.returned ++ (pending ++ [pkt])
      rw [h.got, List.append_assoc]
    · refine (h.ring.frame h.room fun i hi => ?_).snoc h.room ?_
      · exact s.nic.rxPacket_rxStore pkt (hhead ▸ hi)
      · show (s.nic.rxStore s.rdh pkt).rxPacket ((s.nic.rdt + 1 + pending.length) % nrxdesc) = pkt
        rw [← hhead]
        exact s.nic.rxPacket_rxStore_self _ (not_lt.1 hlen)
    · rw [List.length_append, List.length_singleton]
      exact hlt
    · show (s.rdh + 1) % nrxdesc = (s.nic.rdt + 1 + (pending ++ [pkt]).length) % nrxdesc
      rw [hhead, Nat.mod_add_mod, List.length_append, List.length_singleton, Nat.add_assoc]
    · show (s.nic.rxStore s.rdh pkt).rxDone ((s.nic.rdt + 1 + k) % nrxdesc)
      rw [List.length_append, List.length_singleton] at hk
      rcases Nat.lt_succ_iff_lt_or_eq.1 hk with hk | rfl
      · exact (s.nic.rxDone_rxStore pkt (hbehind k hk)).2 (h.done k hk hk')
      · rw [← hhead]
        exact s.nic.rxDone_rxStore_self _ _
    · have hi' : i ≠ s.rdh := by
        rw [hhead]
        exact hi pending.length (by simp)
      show ((s.nic.rxStore s.rdh pkt).rxq i).status &&& 1 = 0
      rw [s.nic.status_rxStore pkt hi']
      exact h.free i fun k hk => hi k (by simp; omega)
    · -- the packet that the driver is at is not the one that is written
      have hpc := h.pc
      have hfirst : pending ≠ [] → (s.nic.rdt + 1) % nrxdesc ≠ s.rdh := fun hpos =>
        hbehind 0 (List.length_pos_iff.2 hpos)
      revert hpc
      cases s.pc with
      | out => exact fun _ => trivial
      | test => exact fun _ => trivial
      | copy tail =>
        rintro ⟨htail, -⟩
        exact ⟨htail, by simp⟩
      | clear tail pkt' =>
        rintro ⟨htail, hfst⟩
        exact ⟨htail, by simp [List.head?_append, hfst]⟩
      | bump tail pkt' =>
        rintro ⟨rfl, hfst, hzero⟩
        refine ⟨rfl, by simp [List.head?_append, hfst], ?_⟩
        have hpos : pending ≠ [] := by
          rintro rfl
          cases hfst
        exact (s.nic.status_rxStore pkt (hfirst hpos)).trans hzero

theorem step (h : RxInv s pending) {e : RxEvent} (hs : s.step e = some s') :
    ∃ pending, RxInv s' pending := by
  cases e with
  | call =>
    have hall := h.done_all
    unfold RxSys.step at hs
    dsimp only at hs
    split at hs
    case h_1 hp =>
      rw [hp] at hall
      cases hs
      exact ⟨pending, h.got, h.ring, h.room, h.tail, h.head, fun k hk _ => hall nofun k hk, h.free,
        trivial⟩
    case h_2 => cases hs
  | driver => exact h.e1000Receive hs
  | card pkt => exact h.store hs

end RxInv

theorem e1000Receive_nic (s : Kern) (cr3 pkt length : ℕ) :
    Prog.wp (e1000Receive cr3 pkt length)
      (fun r s' => r = -1 ∧ ¬ s.nic.rxDone ((s.nic.rdt + 1) % nrxdesc) ∧ s'.nic = s.nic ∨
        r = 0 ∧ s.nic.rxDone ((s.nic.rdt + 1) % nrxdesc) ∧
          s'.nic = { s.nic.rxClear ((s.nic.rdt + 1) % nrxdesc) with
            rdt := (s.nic.rdt + 1) % nrxdesc })
      (fun _ _ => True) s := by
  have hmm : ∀ (α : Type) (m : MmM α) (t : Kern), Prog.wp (liftMm m)
      (fun _ t' => t'.nic = t.nic) (fun _ _ => True) t := by
    intro α m t
    rw [liftMm, Prog.wp_zoom]
    exact Prog.wp_iff.2 ⟨fun _ _ _ => rfl, fun _ _ _ => trivial⟩
  rw [Jos.e1000Receive, Prog.wp_bind, Prog.wp_get, Prog.wp_ite]
  refine ⟨fun hno => .inl ⟨rfl, fun hd => hd.1 hno, rfl⟩, fun hdd => ?_⟩
  rw [Prog.wp_ite]
  refine ⟨fun hno => .inl ⟨rfl, fun hd => hd.2 hno, rfl⟩, fun heop => ?_⟩
  rw [Prog.wp_bind]
  refine (hmm _ _ s).mono (fun _ s₁ h₁ => ?_) fun _ _ _ => trivial
  rw [Prog.wp_bind]
  refine (hmm _ _ s₁).mono (fun _ s₂ h₂ => ?_) fun _ _ _ => trivial
  rw [Prog.wp_bind]
  refine (hmm _ _ s₂).mono (fun _ s₃ h₃ => ?_) fun _ _ _ => trivial
  refine .inr ⟨rfl, ⟨hdd, heop⟩, ?_⟩
  simp only [h₃.trans (h₂.trans h₁), Nic.rxClear]

theorem e1000Receive_reach {s s' : Kern} {cr3 pkt length : ℕ} {r : ℤ} (t : RxSys)
    (hcall : e1000Receive cr3 pkt length s = .ret r s') (hnic : t.nic = s.nic)
    (hpc : t.pc = .out) :
    ∃ t', Sys.Reach RxSys.step (fun _ _ => True) t t' ∧ t'.nic = s'.nic ∧ t'.pc = .out ∧
      t'.rdh = t.rdh ∧ t'.stored = t.stored ∧
      t'.returned = if r = 0 then t.returned ++ [s.nic.rxPacket ((s.nic.rdt + 1) % nrxdesc)]
        else t.returned := by
  obtain ⟨rfl, -, hs'⟩ | ⟨rfl, ⟨hdd, heop⟩, hs'⟩ := (e1000Receive_nic s cr3 pkt length).ret hcall
  · exact ⟨t, .refl, hnic.trans hs'.symm, hpc, rfl, rfl, by simp⟩
  · rw [← hnic] at hdd heop hs'
    have hstart : t.step .call = some { t with pc := .test } := by
      simp only [RxSys.step, hpc]
    have htest : { t with pc := .test }.step .driver =
        some { t with pc := .copy ((t.nic.rdt + 1) % nrxdesc) } := by
      simp only [RxSys.step, RxSys.e1000Receive, if_neg hdd, if_neg heop]
    have r₂ : Sys.Reach RxSys.step (fun _ _ => True) t _ :=
      (Sys.Reach.refl.step trivial hstart).step trivial htest
    have r₃ := r₂.step (l := .driver) trivial rfl
    have r₄ := r₃.step (l := .driver) trivial rfl
    have r₅ := r₄.step (l := .driver) trivial rfl
    exact ⟨_, r₅, hs'.symm, rfl, rfl, rfl, by rw [if_pos rfl, ← hnic]⟩

/-- The card, the packets it has stored, and how many system calls have returned one. -/
structure RxCalls where
  nic : Nic
  rdh : ℕ
  stored : List (List ℕ)
  got : ℕ

inductive RxCallEvent where
  /-- a call of `e1000_receive`, in any state of the rest of the kernel -/
  | call (s : Kern) (cr3 pkt length : ℕ)
  | card (pkt : List ℕ)

def RxCalls.step (x : RxCalls) : RxCallEvent → Option RxCalls
  | .call s cr3 pkt length =>
    match e1000Receive cr3 pkt length { s with nic := x.nic } with
    | .ret r s' => some { x with nic := s'.nic, got := if r = 0 then x.got + 1 else x.got }
    | .stop _ _ => none
  | .card pkt =>
    if x.rdh = x.nic.rdt ∨ pktBufSize < pkt.length then none
    else some { x with
      nic := x.nic.rxStore x.rdh pkt
      rdh := (x.rdh + 1) % nrxdesc
      stored := x.stored ++ [pkt] }

/-- The steps of the driver and the card lead to the same rings. -/
structure RxCalls.Refines (x : RxCalls) (t : RxSys) : Prop where
  reach : Sys.Reach RxSys.step (fun _ _ => True) RxSys.init t
  nic : t.nic = x.nic
  pc : t.pc = .out
  rdh : t.rdh = x.rdh
  stored : t.stored = x.stored
  got : t.returned.length = x.got

theorem RxCalls.Refines.step {x x' : RxCalls} {t : RxSys} (h : x.Refines t) {e : RxCallEvent}
    (hs : x.step e = some x') : ∃ t', x'.Refines t' := by
  cases e with
  | call s cr3 pkt length =>
    unfold RxCalls.step at hs
    dsimp only at hs
    split at hs
    case h_1 r s' hcall =>
      cases hs
      obtain ⟨t', hr, hnic, hpc, hrdh, hstored, hgot⟩ := e1000Receive_reach t hcall h.nic h.pc
      exact ⟨t', h.reach.trans hr, hnic, hpc, hrdh.trans h.rdh, hstored.trans h.stored,
        by rw [hgot, ← h.got]; split <;> simp⟩
    case h_2 => cases hs
  | card pkt =>
    obtain ⟨nic, rdh, pc, ret, stored, returned⟩ := t
    obtain ⟨hr, rfl, hpc, rfl, rfl, hgot⟩ := h
    unfold RxCalls.step at hs
    dsimp only at hs
    split at hs
    case isTrue => cases hs
    case isFalse hno =>
      cases hs
      exact ⟨_, hr.step (l := .card pkt) trivial (if_neg hno), rfl, hpc, rfl, rfl, hgot⟩

/-- A kernel with one page for the user, at address 0 of directory 1. -/
def Demo.receiver : Kern where
  mm := {
    npages := 4
    mem := fun p i => if i = 0 ∧ (p = 1 ∨ p = 2) then mkPte (p + 1) (pteU ||| pteW) else 0
    pages := fun _ => { ppRef := 1, ppLink := none }
    pageFreeList := none
    kernPgdir := 1 }
  envs := fun _ => { envId := 4096, envStatus := .running, envPgdir := some 1 }
  envFreeList := none
  envsEnd := 0
  cpus := fun _ => { cpuStatus := .started, cpuEnv := some 0, cr3 := 1 }

end Jos
