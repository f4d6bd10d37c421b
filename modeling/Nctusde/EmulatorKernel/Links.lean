import Nctusde.EmulatorKernel.Composed
import Nctusde.Network.Calls

namespace Nctusde.EmulatorKernel

open BlockLayer Library Library.Memory Network UdpServer Wire

/-- The server behind the network, and the number of the next message to it. -/
structure Link where
  server : Server
  next : ℕ

/-- What a call is worth over a network that keeps the order, for a driver that numbers
its messages one after the other. -/
def calling : Contract Link Op Ans where
  admits
    | _, .communicate request _ => request.id ≠ 0
    | _, .ktimeGet => True
    | _, .hrtimerExpired _ => True
  requires
    | w, .communicate request _ => request.id.toNat = w.next
    | _, .ktimeGet => True
    | _, .hrtimerExpired _ => True
  ensures
    | w, .communicate request data, (reply : Bytes), w' =>
      (∃ sent, w.server.receive (datagramOf request data) = .loop w'.server sent) ∧
        reply = w'.server.datagram ∧ w'.next = w.next + 1
    | w, .ktimeGet, _, w' => w' = w
    | w, .hrtimerExpired _, _, w' => w' = w

/-- Calls over the network, considered while ids have not wrapped; clock and timers do
as they like. -/
def networked : Handler Net Op Ans where
  admits
    | _, .communicate request _ => request.id ≠ 0
    | _, .ktimeGet => True
    | _, .hrtimerExpired _ => True
  answers
    | v, .communicate request data, (reply : Bytes), v' => v.Calls request data reply v'
    | v, .ktimeGet, _, v' => v' = v
    | v, .hrtimerExpired _, _, v' => v' = v

/-- The driver and the network, after the reset was acknowledged by a server whose
storage held `initial`. -/
def networkTurns (P : Request → Prop) (n speed : ℕ) (initial : ℕ → UInt8) :
    Turns Op Ans Trap System Net where
  start s v := s.IsStart n speed ∧ ∃ (v₀ : Net) (reply : Bytes), v₀.IsStart v₀.server ∧
    v₀.server.memoryStorage = initial ∧ v₀.Calls s.bootRequest [] reply v
  enters := System.Enters P
  drifts := Net.Leads Between

/-- A network between two calls, with the server of a link. -/
structure Carries (v : Net) (w : Link) : Prop where
  reachable : ∃ server, Net.Reachable Ordered server v
  idle : v.client.sending = none
  issued : v.issued ≠ []
  server : v.server = w.server
  next : v.nextId = w.next

theorem keeps_calling : Program.Keeps networked calling Carries where
  admits v w o _ ha := by
    cases o with
    | communicate request data => exact ha
    | ktimeGet => trivial
    | hrtimerExpired time => trivial
  ensures v w o a v' hR _ hreq hans := by
    cases o with
    | ktimeGet =>
      obtain rfl : v' = v := hans
      exact ⟨w, rfl, hR⟩
    | hrtimerExpired time =>
      obtain rfl : v' = v := hans
      exact ⟨w, rfl, hR⟩
    | communicate request data =>
      obtain ⟨server, hreach⟩ := hR.reachable
      have hid : v.NextId (.communicate request data) :=
        ⟨(show request.id.toNat = w.next from hreq).trans hR.next.symm,
          fun hnil ↦ absurd hnil hR.issued⟩
      obtain ⟨⟨sent, hrec⟩, hreply, hreach', hidle, hissued⟩ :=
        Net.Calls.receive hans hreach hR.idle hid
      refine ⟨⟨v'.server, w.next + 1⟩, ⟨⟨sent, hR.server ▸ hrec⟩, hreply, rfl⟩, ⟨server, hreach'⟩,
        hidle, ?_, rfl, ?_⟩
      · rw [hissued]
        exact List.cons_ne_nil _ _
      · rw [Net.nextId, hissued]
        dsimp only
        rw [messageId_datagramOf]
        exact congrArg (· + 1) hreq

theorem Carries.drift {v v' : Net} {w : Link} (h : Carries v w) (hd : Net.Leads Between v v') :
    Carries v' w := by
  obtain ⟨server, hreach⟩ := h.reachable
  obtain ⟨hreach', hissued, hsending⟩ := Leads.between hd hreach
  exact ⟨⟨server, hreach'⟩, hsending.trans h.idle, hissued ▸ h.issued,
    (Leads.server_idle hd hreach h.idle).trans h.server, by
      have hnext : v'.nextId = v.nextId := by rw [Net.nextId, Net.nextId, hissued]
      exact hnext.trans h.next⟩

structure Linked (d : Emudisk) (w : Link) : Prop where
  number : d.udpSendReplyId ≠ 0 → d.udpSendReplyId.toNat = w.next
  new : w.server.currentMaxRequestId < w.next

variable {E : Trap → Prop} {d d' : Emudisk} {w w' : Link} {s s' : System} {req : Request}

theorem Linked.numbered (h : Linked d w) (hid : d.udpSendReplyId ≠ 0) (hnext : w'.next = w.next + 1)
    (hc : w'.server.currentMaxRequestId = d.udpSendReplyId.toNat) : Linked d.numbered w' := by
  have hnumber := h.number hid
  refine ⟨fun hne ↦ ?_, ?_⟩
  · rw [show d.numbered.udpSendReplyId.toNat = _ from toNat_succ hne, hnumber, hnext]
  · rw [hc, hnext, hnumber]
    exact_mod_cast Nat.lt_succ_self _

theorem wp_call {Q : Bytes → Link → Prop} {r : NctussEmuRequest} {data : Bytes} (hl : Linked d w)
    (hid : r.id = d.udpSendReplyId)
    (h : d.udpSendReplyId ≠ 0 → w.server.currentMaxRequestId < r.id.toNat → ∀ w' sent,
      w.server.receive (datagramOf r data) = .loop w'.server sent → w'.next = w.next + 1 →
        Q w'.server.datagram w') :
    (communicateWithEmulator r data).wp calling E Q w := by
  intro hne
  have hne : d.udpSendReplyId ≠ 0 := hid ▸ hne
  have hnumber : r.id.toNat = w.next := hid ▸ hl.number hne
  refine ⟨hnumber, fun (b : Bytes) w' hans ↦ ?_⟩
  obtain ⟨⟨sent, hrec⟩, rfl, hnext⟩ := hans
  exact h hne (hnumber ▸ hl.new) w' sent hrec hnext

/-- No channel reports the id that marks a free entry. -/
def Named (sim : MySSDSim) : Prop := ∀ i < sim.count, toU32 (sim.ioRequestId i) ≠ 0

theorem Named.submitRequest {sim sim' : MySSDSim} {totals totals' : Totals}
    {time rw sector count ioRequestId c : ℤ} (h : Named sim) (h0 : toU32 ioRequestId ≠ 0)
    (hs : sim.submitRequest totals time rw sector count ioRequestId = some (c, sim', totals')) :
    Named sim' := by
  unfold MySSDSim.submitRequest at hs
  dsimp only at hs
  split at hs
  · simp only [Option.some.injEq, Prod.mk.injEq] at hs
    obtain ⟨-, rfl, -⟩ := hs
    exact h
  split at hs
  · cases hs
  simp only [Option.some.injEq, Prod.mk.injEq] at hs
  obtain ⟨-, rfl, -⟩ := hs
  intro i hi
  by_cases hpos : i = sim.oldestChannel.2.getD 0
  · simp only [MySSDSim.ioRequestId, hpos, Function.update_self]
    exact h0
  · simp only [MySSDSim.ioRequestId, Function.update_of_ne hpos]
    exact h i hi

theorem Named.reported {sim : MySSDSim} {time : ℤ} (h : Named sim) {ids : ℕ → UInt32}
    (hids : ∀ i : ℕ, (i : ℤ) < (sim.nextResponses time).numResponse →
      ids i = toU32 ((sim.nextResponses time).ioRequestIds.getD i 0)) {i : ℕ}
    (hi : i < (toU32 (sim.nextResponses time).numResponse).toNat) : ids i ≠ 0 := by
  have hto := toNat_toU32 (sim.nextResponses time).numResponse
  rcases sim.nextResponses_spec time with ⟨j, -, -, -, -, heq⟩ | ⟨-, heq⟩
  · rw [heq] at hids hto hi
    dsimp only at hids hto hi
    have hlt : i < (sim.completingAt (sim.completionTime j)).length := by omega
    rw [hids i (by exact_mod_cast hlt), List.getD_eq_getElem _ _ hlt]
    obtain ⟨k, hk, -, hid⟩ := sim.mem_completingAt.mp (List.getElem_mem hlt)
    rw [← hid]
    exact h k hk
  · rw [heq] at hto hi
    dsimp only at hto hi
    omega

structure Keeps (d' : Emudisk) (w w' : Link) : Prop where
  linked : Linked d' w'
  named : Named w'.server.mySSDSim
  later : w.next ≤ w'.next
  memory : w'.server.memoryStorage = w.server.memoryStorage

theorem link_emulatorSubmitRequest {Q : Emudisk → Link → Prop} {time : ℤ} {dir : DataDir}
    {sector count : ℕ} (hl : Linked d w) (hn : Named w.server.mySSDSim)
    (h : ∀ w', d.udpSendReplyId.toNat = w.next → w.next < w'.next → Keeps d.numbered w w' →
      Q d.numbered w') :
    (d.emulatorSubmitRequest time dir sector count d.udpSendReplyId).wp calling E Q w := by
  have htype : (d.submitReqeust time dir sector count d.udpSendReplyId).type =
    NctussEmuRequestType.submitReqeust.code := rfl
  have hid : (d.submitReqeust time dir sector count d.udpSendReplyId).id = d.udpSendReplyId := rfl
  have hio : (d.submitReqeust time dir sector count d.udpSendReplyId).data6 =
      d.udpSendReplyId := rfl
  rw [Emudisk.emulatorSubmitRequest, Program.bind_eq, Program.wp_bind]
  generalize d.submitReqeust time dir sector count d.udpSendReplyId = r at htype hid hio ⊢
  refine wp_call hl hid fun hne hnew w' sent hrec hnext ↦ ?_
  rw [datagramOf_nil] at hrec
  obtain ⟨hcounter, hmemory, c, totals, hsubmit⟩ :=
    Server.receive_submitReqeust_loop (r := { r with idCheck := r.id }) htype rfl hnew hrec
  refine h w' (hl.number hne) (hnext ▸ Nat.lt_succ_self _)
    ⟨hl.numbered hne hnext (hcounter.trans (by rw [← hid])), hn.submitRequest ?_ hsubmit,
      hnext ▸ Nat.le_succ _, hmemory⟩
  rw [toU32_natCast_toNat, hio]
  exact hne

theorem link_emulatorGetResponses {Q : Emudisk × NextResponses → Link → Prop} {time : ℤ}
    (hl : Linked d w) (hn : Named w.server.mySSDSim)
    (h : ∀ w' next, Keeps d.numbered w w' → (∀ i < next.num, next.ids i ≠ 0) →
      Q (d.numbered, next) w') :
    (d.emulatorGetResponses time).wp calling (fun _ ↦ True) Q w := by
  have htype : (d.getNextResponses time).type = NctussEmuRequestType.getNextResponses.code := rfl
  have hid : (d.getNextResponses time).id = d.udpSendReplyId := rfl
  rw [Emudisk.emulatorGetResponses, Program.bind_eq, Program.wp_bind]
  generalize d.getNextResponses time = r at htype hid ⊢
  refine wp_call hl hid fun hne hnew w' sent hrec hnext ↦ ?_
  rw [datagramOf_nil] at hrec
  obtain ⟨s', hs', hserved, h1, -, -, hids⟩ := Server.receive_getNextResponses
    (r := { r with idCheck := r.id }) (s := w.server) htype rfl hnew
  obtain rfl := Outcome.server_unique hs' hrec
  have hkeeps : Keeps d.numbered w w' := by
    refine ⟨hl.numbered hne hnext (hserved.currentMaxRequestId.trans (by rw [← hid])), ?_,
      hnext ▸ Nat.le_succ _, hserved.memoryStorage⟩
    have hsame := w.server.mySSDSim.sameChannels_getNextResponses
      (Server.time64 { r with idCheck := r.id })
    rw [hserved.mySSDSim, Named, hsame.count, hsame.ioRequestId]
    exact hn
  rw [Program.bind_eq, Program.wp_bind, Emudisk.readResponses]
  split
  · trivial
  split
  · trivial
  rename_i hmany
  refine h w' _ hkeeps fun i hi ↦ ?_
  rw [hserved.answers.datagram] at hi hmany ⊢
  dsimp only at hi ⊢
  rw [NctussEmuReply.decode_encode_data1] at hi hmany
  rw [MAX_DISK_REQUESTS_IN_PARALLEL] at hmany
  rw [NctussEmuReply.decode_encode_ioRequestIds _ _ (by rw [MAX_EMULATOR_CHANNELS]; omega)]
  rw [h1] at hi
  exact hn.reported hids hi

theorem link_transferRead {Q : Emudisk → Link → Prop} {sectorNum slot offset : ℕ} (hl : Linked d w)
    (hn : Named w.server.mySSDSim) (hsector : sectorNum < 2 ^ 32)
    (h : ∀ w', Keeps d.numbered w w' → Q (d.withData slot (blit (d.requestIdToReqMapping slot).data
      offset (w.server.getSector sectorNum))).numbered w') :
    (d.emulatorTransferData .read sectorNum slot offset).wp calling E Q w := by
  simp only [Emudisk.emulatorTransferData, Program.bind_eq, Program.wp_bind]
  refine wp_call hl rfl fun hne hnew w' sent hrec hnext ↦ ?_
  obtain ⟨s', hs', hserved, hbytes⟩ := receive_sectorRead (n := sectorNum) hnew
  obtain rfl := Outcome.server_unique hs' hrec
  rw [toNat_toU32_natCast hsector] at hbytes
  have htype : (NctussEmuReply.decode w'.server.datagram).type = NctussEmuReplyType.ok.code := by
    rw [hserved.answers.datagram, NctussEmuReply.decode_encode_type]
    exact hserved.type
  rw [if_neg (not_not.mpr htype), hbytes]
  exact h w' ⟨hl.numbered hne hnext hserved.currentMaxRequestId, hserved.mySSDSim ▸ hn,
    hnext ▸ Nat.le_succ _, hserved.memoryStorage⟩

theorem link_transferWrite {Q : Emudisk → Link → Prop} {sectorNum slot offset : ℕ} (hl : Linked d w)
    (hn : Named w.server.mySSDSim) (hsector : sectorNum < 2 ^ 32)
    (h : ∀ w', Linked d.numbered w' → Named w'.server.mySSDSim → w.next ≤ w'.next →
      w'.server.memoryStorage = blit w.server.memoryStorage (sectorNum * SECTOR_SIZE)
        (slice (d.requestIdToReqMapping slot).data offset SECTOR_SIZE) → Q d.numbered w') :
    (d.emulatorTransferData .write sectorNum slot offset).wp calling E Q w := by
  simp only [Emudisk.emulatorTransferData, Program.bind_eq, Program.wp_bind]
  refine wp_call hl rfl fun hne hnew w' sent hrec hnext ↦ ?_
  obtain ⟨s', hs', hserved⟩ := receive_sectorWrite (n := sectorNum)
    (slice_length (d.requestIdToReqMapping slot).data offset SECTOR_SIZE) hnew
  obtain rfl := Outcome.server_unique hs' hrec
  have hmemory := hserved.memoryStorage
  rw [toNat_toU32_natCast hsector] at hmemory
  exact h w' (hl.numbered hne hnext hserved.currentMaxRequestId) (hserved.mySSDSim ▸ hn)
    (hnext ▸ Nat.le_succ _) hmemory

/-- Part `k` of a read of whole sectors continues what the parts before it put there. -/
theorem blit_sector (mem data : ℕ → UInt8) (off base k : ℕ) :
    blit (blit data off (slice mem base (k * SECTOR_SIZE))) (off + k * SECTOR_SIZE)
      (slice mem (base + k * SECTOR_SIZE) SECTOR_SIZE) =
        blit data off (slice mem base ((k + 1) * SECTOR_SIZE)) := by
  have happend := blit_append data off (slice mem base (k * SECTOR_SIZE))
    (slice mem (base + k * SECTOR_SIZE) SECTOR_SIZE)
  rw [slice_length] at happend
  rw [happend, ← slice_add, Nat.succ_mul]

def RequestIdToReq.refill (entry : RequestIdToReq) (data : ℕ → UInt8) : RequestIdToReq :=
  { entry with data := data }

theorem link_transferSectors_read {Q : Emudisk → Link → Prop} {slot : ℕ}
    (hdir : req.dataDir = .read)
    (hl : Linked d w) (hn : Named w.server.mySSDSim) (hdisk : req.pos + sectorCount req ≤ 2 ^ 32)
    (h : ∀ d' w', Keeps d' w w' → SameRequests d d' →
      d'.requestIdToReqMapping = Function.update d.requestIdToReqMapping slot
        ((d.requestIdToReqMapping slot).refill (blit (d.requestIdToReqMapping slot).data 0
          (slice w.server.memoryStorage (req.pos * SECTOR_SIZE) (sectorCount req * SECTOR_SIZE)))) →
      Q d' w') :
    (d.transferSectors req slot).wp calling E Q w := by
  let kept (k : ℕ) (d' : Emudisk) (w' : Link) := Keeps d' w w' ∧ SameRequests d d' ∧
    d'.requestIdToReqMapping = Function.update d.requestIdToReqMapping slot
      ((d.requestIdToReqMapping slot).refill (blit (d.requestIdToReqMapping slot).data 0
        (slice w.server.memoryStorage (req.pos * SECTOR_SIZE) (k * SECTOR_SIZE))))
  refine Program.wp_mono (Q := kept (sectorCount req))
    (fun d' w' hd ↦ h d' w' hd.1 hd.2.1 hd.2.2) ?_
  apply Program.wp_foldlM_range kept
  · rintro k d' w' hk ⟨hkeeps, hbatch, hmapping⟩
    rw [hdir]
    refine link_transferRead hkeeps.linked hkeeps.named (by omega) fun w'' hkeeps' ↦ ?_
    refine ⟨⟨⟨hkeeps'.linked.number, hkeeps'.linked.new⟩, hkeeps'.named,
      hkeeps.later.trans hkeeps'.later, hkeeps'.memory.trans hkeeps.memory⟩,
      hbatch.trans ((sameRequests_withData d' slot _).trans (sameRequests_numbered _)), ?_⟩
    rw [Server.getSector, hkeeps.memory, Emudisk.withData, Emudisk.withEntry, Emudisk.numbered]
    dsimp only
    rw [hmapping, Function.update_self, Function.update_idem]
    have hnext := blit_sector w.server.memoryStorage (d.requestIdToReqMapping slot).data 0
      (req.pos * SECTOR_SIZE) k
    rw [Nat.zero_add, ← Nat.add_mul] at hnext
    rw [← hnext]
    rfl
  · refine ⟨⟨hl, hn, le_rfl, rfl⟩, .refl d, ?_⟩
    rw [Nat.zero_mul, slice_zero, blit_nil]
    exact (Function.update_eq_self slot _).symm

theorem link_transferSectors_write {Q : Emudisk → Link → Prop} {slot : ℕ}
    (hdir : req.dataDir = .write) (hl : Linked d w) (hn : Named w.server.mySSDSim)
    (hdisk : req.pos + sectorCount req ≤ 2 ^ 32)
    (h : ∀ d' w', Linked d' w' → Named w'.server.mySSDSim → w.next ≤ w'.next → SameRequests d d' →
      d'.requestIdToReqMapping = d.requestIdToReqMapping →
      w'.server.memoryStorage = blit w.server.memoryStorage (req.pos * SECTOR_SIZE)
        (slice (d.requestIdToReqMapping slot).data 0 (sectorCount req * SECTOR_SIZE)) → Q d' w') :
    (d.transferSectors req slot).wp calling E Q w := by
  let kept (k : ℕ) (d' : Emudisk) (w' : Link) := Linked d' w' ∧ Named w'.server.mySSDSim ∧
    w.next ≤ w'.next ∧ SameRequests d d' ∧ d'.requestIdToReqMapping = d.requestIdToReqMapping ∧
      w'.server.memoryStorage = blit w.server.memoryStorage (req.pos * SECTOR_SIZE)
        (slice (d.requestIdToReqMapping slot).data 0 (k * SECTOR_SIZE))
  refine Program.wp_mono (Q := kept (sectorCount req))
    (fun d' w' hd ↦ h d' w' hd.1 hd.2.1 hd.2.2.1 hd.2.2.2.1 hd.2.2.2.2.1 hd.2.2.2.2.2) ?_
  apply Program.wp_foldlM_range kept
  · rintro k d' w' hk ⟨hl', hn', hlater, hbatch, hmapping, hmemory⟩
    rw [hdir]
    refine link_transferWrite hl' hn' (by omega) fun w'' hl'' hn'' hlater' hmemory' ↦
      ⟨hl'', hn'', hlater.trans hlater', hbatch.trans (sameRequests_numbered d'), hmapping, ?_⟩
    have hnext := blit_sector (d.requestIdToReqMapping slot).data w.server.memoryStorage
      (req.pos * SECTOR_SIZE) 0 k
    rw [Nat.zero_add, ← Nat.add_mul] at hnext
    rw [hmemory', hmemory, hmapping, hnext]
  · refine ⟨hl, hn, le_rfl, .refl d, rfl, ?_⟩
    rw [Nat.zero_mul, slice_zero, blit_nil]

end Nctusde.EmulatorKernel
