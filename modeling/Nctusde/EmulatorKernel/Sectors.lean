import Nctusde.EmulatorKernel.Links
import Nctusde.EmulatorKernel.Service

namespace Nctusde.EmulatorKernel

open BlockLayer Library Library.Memory Network UdpServer Wire

/-- A file system request of whole sectors inside the disk, at most 128 of them. -/
def System.Whole (req : Request) : Prop :=
  System.Usual req ∧ SECTOR_SIZE ∣ req.bytes ∧ req.pos + sectorCount req ≤ 819200

instance : DecidablePred System.Whole := fun _ ↦ inferInstanceAs (Decidable (_ ∧ _ ∧ _))

def Writes (req : Request) (sector : ℕ) : Prop :=
  req.dataDir = .write ∧ req.pos ≤ sector ∧ sector < req.pos + sectorCount req

instance (req : Request) (sector : ℕ) : Decidable (Writes req sector) :=
  inferInstanceAs (Decidable (_ ∧ _))

def lastWrite (sector : ℕ) (history : List (UInt32 × Request)) : Option Request :=
  (history.map (·.2)).reverse.find? fun req ↦ Writes req sector

/-- What a sector of an atomic store holds after a history of requests. -/
def sectorAfter (initial : ℕ → UInt8) (history : List (UInt32 × Request)) (sector : ℕ) : Bytes :=
  match lastWrite sector history with
  | none => slice initial (sector * SECTOR_SIZE) SECTOR_SIZE
  | some req => (req.content.drop ((sector - req.pos) * SECTOR_SIZE)).take SECTOR_SIZE

def storage (initial : ℕ → UInt8) (history : List (UInt32 × Request)) : ℕ → UInt8 :=
  history.foldl (fun mem p ↦
    match p.2.dataDir with
    | .read => mem
    | .write => blit mem (p.2.pos * SECTOR_SIZE) p.2.content) initial

variable {initial : ℕ → UInt8} {history : List (UInt32 × Request)} {requestId : UInt32}
  {req : Request} {bytes : Bytes}

theorem System.Whole.bytes_eq (h : System.Whole req) :
    sectorCount req * SECTOR_SIZE = req.bytes := by
  obtain ⟨k, hk⟩ := h.2.1
  rw [sectorCount, hk, SECTOR_SIZE]
  omega

theorem storage_read (hdir : req.dataDir = .read) :
    storage initial (history ++ [(requestId, req)]) = storage initial history := by
  rw [storage, List.foldl_concat]
  dsimp only
  rw [hdir]
  rfl

theorem storage_write (hdir : req.dataDir = .write) :
    storage initial (history ++ [(requestId, req)]) =
      blit (storage initial history) (req.pos * SECTOR_SIZE) req.content := by
  rw [storage, List.foldl_concat]
  dsimp only
  rw [hdir]
  rfl

theorem sectorAfter_concat (sector : ℕ) :
    sectorAfter initial (history ++ [(requestId, req)]) sector = if Writes req sector then
      (req.content.drop ((sector - req.pos) * SECTOR_SIZE)).take SECTOR_SIZE
    else sectorAfter initial history sector := by
  rw [sectorAfter, lastWrite, List.map_append, List.reverse_append]
  by_cases hw : Writes req sector
  · simp [hw]
  · simp [hw, sectorAfter, lastWrite]

theorem slice_storage (h : ∀ p ∈ history, System.Whole p.2) (sector : ℕ) :
    slice (storage initial history) (sector * SECTOR_SIZE) SECTOR_SIZE =
      sectorAfter initial history sector := by
  induction history using List.reverseRecOn with
  | nil => rfl
  | append_singleton history p ih =>
    obtain ⟨requestId, req⟩ := p
    have hold := ih fun p hp ↦ h p (List.mem_append_left _ hp)
    have hwhole : System.Whole req := h (requestId, req) (by simp)
    have hlength : req.content.length = sectorCount req * SECTOR_SIZE :=
      req.content_length.trans hwhole.bytes_eq.symm
    rw [sectorAfter_concat]
    cases hdir : req.dataDir with
    | read =>
      have hnot : ¬ Writes req sector := fun hw ↦ nomatch hdir.symm.trans hw.1
      rw [storage_read hdir, if_neg hnot, hold]
    | write =>
      rw [storage_write hdir]
      rw [SECTOR_SIZE] at hlength hold ⊢
      split
      · rename_i hw
        obtain ⟨-, hle, hlt⟩ := hw
        rw [slice_blit_within _ (by omega) (by omega), Nat.sub_mul]
      · rename_i hw
        rw [slice_blit_disjoint _ ?_, hold]
        have hout : ¬ (req.pos ≤ sector ∧ sector < req.pos + sectorCount req) := fun hin ↦
          hw ⟨hdir, hin⟩
        omega

/-- The bytes are those the store had where the request is in the history. -/
def Reads (initial : ℕ → UInt8) (submitted : List (UInt32 × Request)) (requestId : UInt32)
    (req : Request) (bytes : Bytes) : Prop :=
  ∃ before after, submitted = before ++ (requestId, req) :: after ∧
    bytes = slice (storage initial before) (req.pos * SECTOR_SIZE) req.bytes

theorem Reads.append (h : Reads initial history requestId req bytes) (p : UInt32 × Request) :
    Reads initial (history ++ [p]) requestId req bytes := by
  obtain ⟨before, after, rfl, rfl⟩ := h
  exact ⟨before, after ++ [p], by simp, rfl⟩

/-- What the driver has of the store: the server's memory is the store's, and a read in a slot
already has its data. -/
structure Stores (initial : ℕ → UInt8) (s : System) (w : Link) : Prop where
  linked : Linked s.disk w
  named : Named w.server.mySSDSim
  memory : w.server.memoryStorage = storage initial s.submitted
  batch : ∀ i < s.disk.nextResponseToReplyNum, s.disk.nextResponseToReplyIds i ≠ 0
  whole : ∀ p ∈ s.submitted, System.Whole p.2
  ids : (s.submitted.map (·.1)).Nodup
  old : ∀ p ∈ s.submitted, p.1.toNat < w.next
  slots : ∀ i < s.disk.count, (s.disk.requestIdToReqMapping i).requestId ≠ 0 → ∀ req,
    (s.disk.requestIdToReqMapping i).req = some req → req.dataDir = .read →
      Reads initial s.submitted (s.disk.requestIdToReqMapping i).requestId req
        (slice (s.disk.requestIdToReqMapping i).data 0 req.bytes)
  completed : ∀ c ∈ s.completed, c.req.dataDir = .read →
    Reads initial s.submitted c.requestId c.req c.segments.flatten ∧
      c.segments.map List.length = c.req.segments.map List.length

variable {s : System} {w w' : Link} {d : Emudisk} {entry : RequestIdToReq}

theorem Stores.submitted (h : Stores initial s w) (slot : ℕ)
    (hwhole : System.Whole req) {inflight : ℤ}
    (hid : s.disk.udpSendReplyId.toNat = w.next) (hlater : w.next < w'.next)
    (hl : Linked d w') (hn : Named w'.server.mySSDSim)
    (hmemory : w'.server.memoryStorage =
      storage initial (s.submitted ++ [(s.disk.udpSendReplyId, req)]))
    (hcount : d.count = s.disk.count) (hbatch : SameBatch s.disk d)
    (hmapping : d.requestIdToReqMapping = Function.update s.disk.requestIdToReqMapping slot entry)
    (hentry : entry.requestId = s.disk.udpSendReplyId) (hreq : entry.req = some req)
    (hdata : req.dataDir = .read → slice entry.data 0 req.bytes =
      slice (storage initial s.submitted) (req.pos * SECTOR_SIZE) req.bytes) :
    Stores initial { s with
      disk := { d with requestInflight := inflight }
      submitted := s.submitted ++ [(s.disk.udpSendReplyId, req)] } w' := by
  refine ⟨⟨hl.number, hl.new⟩, hn, hmemory, ?_, ?_, ?_, ?_, ?_, ?_⟩
  · dsimp only
    rw [hbatch.num, hbatch.ids]
    exact h.batch
  · intro p hp
    rcases List.mem_append.mp hp with hp | hp
    · exact h.whole p hp
    · rw [List.mem_singleton.mp hp]
      exact hwhole
  · dsimp only
    rw [List.map_append, List.map_singleton]
    refine List.nodup_append.mpr ⟨h.ids, List.nodup_singleton _, fun id hold id' hnew ↦ ?_⟩
    rw [List.mem_singleton.mp hnew]
    rintro rfl
    obtain ⟨p, hp, heq⟩ := List.mem_map.mp hold
    have hlt := h.old p hp
    rw [heq, hid] at hlt
    exact lt_irrefl _ hlt
  · intro p hp
    rcases List.mem_append.mp hp with hp | hp
    · exact (h.old p hp).trans hlater
    · rw [List.mem_singleton.mp hp]
      exact hid.trans_lt hlater
  · intro i hi hne req' hreq' hdir
    dsimp only at hi hne hreq' ⊢
    rw [hmapping] at hne hreq' ⊢
    by_cases hslot : i = slot
    · rw [hslot, Function.update_self] at hne hreq' ⊢
      obtain rfl : req = req' := Option.some.inj (hreq.symm.trans hreq')
      exact ⟨s.submitted, [], by rw [hentry], hdata hdir⟩
    · rw [Function.update_of_ne hslot] at hne hreq' ⊢
      exact (h.slots i (hcount ▸ hi) hne req' hreq' hdir).append _
  · intro c hc hdir
    obtain ⟨hreads, hlengths⟩ := h.completed c hc hdir
    exact ⟨hreads.append _, hlengths⟩

theorem Stores.submit (h : Stores initial s w) (hwhole : System.Whole req) (now : ℤ) :
    (s.submit now req).wp calling (fun _ ↦ True) (Stores initial) w := by
  unfold System.submit
  split
  · trivial
  split
  · trivial
  unfold Emudisk.putRequestIdToReqMapping
  rcases s.disk.findRequestId 0 with _ | slot
  · trivial
  rw [Option.map_some, System.submitPut, System.submitSlot]
  split
  · trivial
  have hsectors := hwhole.bytes_eq
  have hlength := req.content_length
  have hdisk : req.pos + sectorCount req ≤ 2 ^ 32 := hwhole.2.2.trans (by decide)
  cases hdir : req.dataDir with
  | read =>
    simp only [Program.bind_eq, Program.wp_bind]
    refine link_emulatorSubmitRequest ⟨h.linked.number, h.linked.new⟩ h.named
      fun w₁ hid hlater hk₁ ↦ ?_
    refine link_transferSectors_read hdir hk₁.linked hk₁.named
      hdisk fun d₂ w₂ hk₂ hsame hmapping ↦ ?_
    have hmemory : w₁.server.memoryStorage = storage initial s.submitted :=
      hk₁.memory.trans h.memory
    have hfill (data : ℕ → UInt8) := slice_blit_same data 0
      (slice (storage initial s.submitted) (req.pos * SECTOR_SIZE) req.bytes)
    rw [slice_length] at hfill
    have hbatch := SameBatch.of_sameRequests hsame
    refine h.submitted slot hwhole hid (hlater.trans_le hk₂.later) hk₂.linked hk₂.named
      (hk₂.memory.trans (hmemory.trans (storage_read hdir).symm)) hsame.count
      ⟨hbatch.time, hbatch.num, hbatch.ids, hbatch.latest⟩
        (hmapping.trans (Function.update_idem ..)) ?_ ?_ fun _ ↦ ?_
    · exact congrArg RequestIdToReq.requestId (withEntry_same ..)
    · exact congrArg RequestIdToReq.req (withEntry_same ..)
    · rw [hmemory, hsectors, Emudisk.numbered, RequestIdToReq.refill]
      dsimp only
      rw [withEntry_same]
      exact hfill _
  | write =>
    simp only [Program.bind_eq, Program.wp_bind]
    refine link_emulatorSubmitRequest ⟨h.linked.number, h.linked.new⟩ h.named
      fun w₁ hid hlater hk₁ ↦ ?_
    refine link_transferSectors_write hdir hk₁.linked hk₁.named hdisk
      fun d₂ w₂ hl₂ hn₂ hlater₂ hsame hmapping hmemory ↦ ?_
    have hbatch := SameBatch.of_sameRequests hsame
    have hmemory₁ : w₁.server.memoryStorage = storage initial s.submitted :=
      hk₁.memory.trans h.memory
    refine h.submitted slot hwhole hid (hlater.trans_le hlater₂) hl₂ hn₂ ?_ hsame.count
      ⟨hbatch.time, hbatch.num, hbatch.ids, hbatch.latest⟩
        (hmapping.trans (Function.update_idem ..))
      ?_ ?_ fun hread ↦ DataDir.noConfusion (hdir.symm.trans hread)
    · rw [hmemory, hmemory₁, storage_write hdir, hsectors, Emudisk.numbered, Emudisk.withData]
      dsimp only
      rw [withEntry_same]
      dsimp only
      rw [withEntry_same, gather_eq, ← hlength, Request.content, slice_blit_same]
    · exact congrArg RequestIdToReq.requestId (withEntry_same ..)
    · exact congrArg RequestIdToReq.req (withEntry_same ..)

theorem Stores.strategyLoop (h : Stores initial s w) {queue : List Request}
    (hqueue : ∀ req ∈ queue, System.Whole req) (b : Bool) :
    (s.strategyLoop b queue).wp calling (fun _ ↦ True) (fun r w' ↦ Stores initial r.1 w') w := by
  induction queue generalizing s w b with
  | nil =>
    refine fun _ ↦ ⟨trivial, fun t w' hans ↦ ?_⟩
    obtain rfl : w' = w := hans
    exact h
  | cons req queue ih =>
    refine fun _ ↦ ⟨trivial, fun t w' hans ↦ ?_⟩
    obtain rfl : w' = w := hans
    dsimp only [Program.bind]
    rw [Program.bind_eq, Program.wp_bind]
    refine Program.wp_mono (Q := Stores initial) (fun s' w' h' ↦ ?_)
      (h.submit (hqueue req List.mem_cons_self) t)
    split
    · exact { h' with }
    split
    · exact h'
    · exact ih h' (fun req hreq ↦ hqueue req (List.mem_cons_of_mem _ hreq)) true

theorem Stores.batched (h : Stores initial s w) (hk : Keeps s.disk.numbered w w')
    (hid : d.udpSendReplyId = s.disk.numbered.udpSendReplyId)
    (hmapping : d.requestIdToReqMapping = s.disk.requestIdToReqMapping)
    (hcount : d.count = s.disk.count)
    (hbatch : ∀ i < d.nextResponseToReplyNum, d.nextResponseToReplyIds i ≠ 0) :
    Stores initial { s with disk := d } w' where
  __ := h
  linked := ⟨hid ▸ hk.linked.number, hk.linked.new⟩
  named := hk.named
  memory := hk.memory.trans h.memory
  batch := hbatch
  old p hp := (h.old p hp).trans_le hk.later
  slots := by
    dsimp only
    rw [hmapping, hcount]
    exact h.slots

theorem Stores.announce (h : Stores initial s w) :
    s.announce.wp calling (fun _ ↦ True) (Stores initial) w := by
  rw [System.announce, Program.bind_eq, Program.wp_bind]
  refine link_emulatorGetResponses h.linked h.named fun w' next hk hids ↦ ?_
  have hs : Stores initial { s with disk := (s.disk.numbered.takeUp next).1 } w' := by
    unfold Emudisk.takeUp
    split
    · refine h.batched hk rfl rfl rfl fun i hi ↦ ?_
      dsimp only at hi ⊢
      rw [if_pos hi]
      exact hids i hi
    · exact h.batched hk rfl rfl rfl h.batch
  exact { hs with }

theorem Stores.strategy (h : Stores initial s w) {queue : List Request}
    (hqueue : ∀ req ∈ queue, System.Whole req) :
    (s.strategy queue).wp calling (fun _ ↦ True) (Stores initial) w := by
  rw [System.strategy, Program.bind_eq, Program.wp_bind]
  refine Program.wp_mono (fun r w' hr ↦ ?_) (h.strategyLoop hqueue false)
  dsimp only
  split
  · exact hr.announce
  · exact hr

theorem Stores.softirqDone (h : Stores initial s w) {queue : List Request}
    (hqueue : ∀ req ∈ queue, System.Whole req) :
    (s.softirqDone req queue).wp calling (fun _ ↦ True) (Stores initial) w := by
  unfold System.softirqDone
  dsimp only
  have hs : Stores initial { s with
      disk := { s.disk with requestInflight := s.disk.requestInflight - 1 }
      completing := s.completing.eraseP fun r ↦ r.tag = req.tag } w :=
    { h with linked := ⟨h.linked.number, h.linked.new⟩ }
  split
  · exact Stores.strategy (s := { s with
      disk := { s.disk with requestInflight := s.disk.requestInflight - 1 }
      completing := s.completing.eraseP fun r ↦ r.tag = req.tag
      queueStopped := false }) { hs with } hqueue
  · exact hs

theorem Stores.completeEntry (h : Stores initial s w) (now : ℤ) (hid : requestId ≠ 0) :
    (s.completeEntry now requestId (s.disk.getRequestIdToReqMapping requestId)).wp calling
      (fun _ ↦ True) (fun s' w' ↦ Stores initial s' w' ∧
        s'.disk.nextResponseToReplyIds = s.disk.nextResponseToReplyIds) w := by
  unfold Emudisk.getRequestIdToReqMapping
  rcases hslot : s.disk.findRequestId requestId with _ | slot
  · trivial
  obtain ⟨hlt, hfound⟩ := Emudisk.findRequestId_some hslot
  rw [Option.map_some, System.completeEntry]
  rcases hreq : (s.disk.requestIdToReqMapping slot).req with _ | req
  · trivial
  dsimp only
  split
  · trivial
  refine ⟨{ h with
    linked := ⟨h.linked.number, h.linked.new⟩
    slots := fun i hi hne req' hreq' hdir ↦ ?_
    completed := fun c hc hdir ↦ ?_ }, rfl⟩
  · dsimp only at hne hreq' ⊢
    by_cases heq : i = slot
    · rw [heq, withEntry_same] at hne
      exact absurd rfl hne
    · rw [withEntry_other _ _ heq] at hne hreq' ⊢
      exact h.slots i hi hne req' hreq' hdir
  · rcases List.mem_append.mp hc with hc | hc
    · exact h.completed c hc hdir
    · rw [List.mem_singleton] at hc
      subst hc
      dsimp only at hdir ⊢
      have hreads := h.slots slot hlt (hfound ▸ hid) req hreq hdir
      rw [hdir]
      dsimp only
      rw [scatter_flatten, scatter_lengths]
      exact ⟨hfound ▸ hreads, rfl⟩

theorem Stores.completeBatch (h : Stores initial s w) (now : ℤ) :
    (s.completeBatch now).wp calling (fun _ ↦ True) (Stores initial) w := by
  let kept (_ : ℕ) (s' : System) (w' : Link) := Stores initial s' w' ∧
    s'.disk.nextResponseToReplyIds = s.disk.nextResponseToReplyIds
  refine Program.wp_mono (Q := kept s.disk.nextResponseToReplyNum) (fun s' w' hs ↦ hs.1) ?_
  apply Program.wp_foldlM_range kept
  · rintro i s' w' hi ⟨h', hids⟩
    refine Program.wp_mono (fun s'' w'' hs ↦ ⟨hs.1, hs.2.trans hids⟩) (h'.completeEntry now ?_)
    rw [hids]
    exact h.batch i hi
  · exact ⟨h, rfl⟩

theorem Stores.findNext (h : Stores initial s w) :
    s.findNext.wp calling (fun _ ↦ True) (Stores initial) w := by
  rw [System.findNext, Program.bind_eq, Program.wp_bind]
  refine link_emulatorGetResponses h.linked h.named fun w' next hk hids ↦ ?_
  have hs : Stores initial { s with disk := s.disk.numbered.replace next } w' := by
    unfold Emudisk.replace
    dsimp only
    split
    · refine h.batched hk rfl rfl rfl fun i hi ↦ ?_
      dsimp only at hi ⊢
      rw [if_pos hi]
      exact hids i hi
    · exact h.batched hk rfl rfl rfl fun i hi ↦ absurd hi (Nat.not_lt_zero i)
  dsimp only
  split
  · split
    · trivial
    refine fun _ ↦ ⟨trivial, fun t w'' hans ↦ ?_⟩
    obtain rfl : w'' = w' := hans
    dsimp only [Program.bind]
    split
    · exact { hs with }
    · exact { hs with }
  · exact { hs with }

theorem Stores.processNext (h : Stores initial s w) :
    s.processNext.wp calling (fun _ ↦ True) (Stores initial) w := by
  refine fun _ ↦ ⟨trivial, fun t w' hans ↦ ?_⟩
  obtain rfl : w' = w := hans
  dsimp only [Program.bind]
  split
  · trivial
  split
  · trivial
  split
  · trivial
  rw [Program.bind_eq, Program.wp_bind]
  exact Program.wp_mono (fun s' w' hs ↦ hs.findNext) (h.completeBatch t)

theorem Stores.turn (h : Stores initial s w) {p : Prog System}
    (hp : System.Enters System.Whole s p) : p.wp calling (fun _ ↦ True) (Stores initial) w := by
  cases hp with
  | strategy _ _ hqueue => exact h.strategy hqueue
  | softirqDone _ _ hqueue => exact h.softirqDone hqueue
  | start _ => exact { h with }
  | woken _ => exact { h with }
  | interrupted _ => exact { h with }
  | timer _ =>
    refine fun _ ↦ ⟨trivial, fun _ w' hans ↦ ?_⟩
    obtain rfl : w' = w := hans
    exact { h with }
  | expired _ => exact h.processNext
  | processing _ => exact h.processNext

theorem stores_start {n speed : ℕ} {v₀ v : Net} {reply : Bytes} (hs : s.IsStart n speed)
    (hn : n ≤ MAX_DISK_REQUESTS_IN_PARALLEL) (hv₀ : v₀.IsStart v₀.server)
    (hcall : v₀.Calls s.bootRequest [] reply v) :
    Carries v ⟨v.server, 124⟩ ∧ Stores v₀.server.memoryStorage s ⟨v.server, 124⟩ := by
  have hnext : v₀.NextId (.communicate s.bootRequest []) :=
    ⟨by rw [Net.nextId, hv₀.issued]; rfl, fun _ ↦ rfl⟩
  obtain ⟨⟨sent, hrec⟩, -, hreach, hidle, hissued⟩ :=
    Net.Calls.receive hcall (.start hv₀) hv₀.sending hnext
  obtain ⟨server', hrec', hin, -, hserved⟩ := hs.boots hn v₀.server
  obtain rfl := Outcome.server_unique hrec' hrec
  refine ⟨⟨⟨_, hreach⟩, hidle, ?_, rfl, ?_⟩, ⟨fun _ ↦ ?_, ?_⟩, fun i hi ↦ ?_, ?_, ?_,
    ?_, ?_, ?_, ?_, ?_⟩
  · rw [hissued]
    exact List.cons_ne_nil _ _
  · rw [Net.nextId, hissued]
    dsimp only
    rw [messageId_datagramOf]
    rfl
  · rw [hs.udpSendReplyId]
    rfl
  · rw [hserved.currentMaxRequestId]
    exact Int.natCast_pos.mpr (Nat.succ_pos 123)
  · rw [(hin.idle i hi).1]
    decide
  · rw [hs.submitted]
    exact hserved.memoryStorage
  · rw [hs.nextResponseToReplyNum]
    exact fun i hi ↦ absurd hi (Nat.not_lt_zero i)
  · rw [hs.submitted]
    exact fun p hp ↦ absurd hp List.not_mem_nil
  · rw [hs.submitted]
    exact List.nodup_nil
  · rw [hs.submitted]
    exact fun p hp ↦ absurd hp List.not_mem_nil
  · exact fun i hi hne ↦ absurd (hs.free i hi) hne
  · rw [hs.completed]
    exact fun c hc ↦ absurd hc List.not_mem_nil

theorem reachable_stores {n speed : ℕ} {v : Net} (hn : n ≤ MAX_DISK_REQUESTS_IN_PARALLEL)
    (h : (networkTurns System.Whole n speed initial).Reachable networked s v) :
    ∃ w, Carries v w ∧ Stores initial s w := by
  refine h.invariant keeps_calling (fun v v' w hd hR ↦ hR.drift hd) ?_ fun s w p hi hp ↦ hi.turn hp
  rintro s v ⟨hs, v₀, reply, hv₀, rfl, hcall⟩
  exact ⟨_, stores_start hs hn hv₀ hcall⟩

/-- A network with nothing in flight, and the emulator behind it. -/
structure Realised (v : Net) (w : World) : Prop where
  calm : v.Calm
  server : v.server = w.server
  length : w.server.replyLength ≤ MAX_REPLY_SIZE

theorem realises_reliable (top : ℤ) : Program.Realises (reliable top) networked Realised where
  admits v w o _ ha := by
    cases o with
    | communicate request data => exact ha.1
    | ktimeGet => trivial
    | hrtimerExpired time => trivial
  answers v w o a w' hR _ hans := by
    cases o with
    | communicate request data =>
      obtain ⟨server', hrec, hreply, rfl⟩ := hans
      obtain ⟨hsent, hlength⟩ := Server.receive_reply hrec hR.length
      obtain ⟨v', hcall, hcalm, hserver⟩ := hR.calm.exists_calls (hR.server ▸ hrec) hreply
        (hsent ▸ datagram_length hlength)
      exact ⟨v', hcall, hcalm, hserver, hlength⟩
    | ktimeGet =>
      obtain ⟨-, -, -, rfl⟩ := hans
      exact ⟨v, rfl, hR.calm, hR.server, hR.length⟩
    | hrtimerExpired time =>
      obtain rfl : w' = { w with passed := max w.passed time } := hans
      exact ⟨v, rfl, hR.calm, hR.server, hR.length⟩

theorem session_networked {P : Request → Prop} [DecidablePred P] {n speed : ℕ} {cues : List Cue}
    {w : World} (hn : n ≤ MAX_DISK_REQUESTS_IN_PARALLEL)
    (h : session P n speed cues = some (s, w)) :
    ∃ v, (networkTurns P n speed fun _ ↦ 0).Reachable networked s v := by
  have hs := System.loaded_isStart n speed
  obtain ⟨w₀, hw₀, h⟩ := Option.bind_eq_some_iff.mp h
  obtain ⟨⟨b, hbooted⟩, -⟩ := World.booted_eq_some hw₀
  obtain ⟨server, hrec, -, -, hserved⟩ := hs.boots hn .zeroed
  obtain ⟨rfl, -⟩ := Outcome.loop.inj (hbooted.symm.trans hrec)
  obtain ⟨-, hlength⟩ := Server.receive_reply hrec (Nat.zero_le _)
  have hcalm : Net.zeroed.Calm := ⟨rfl, rfl, rfl, rfl, rfl⟩
  obtain ⟨v₀, hcall, hcalm', hserver⟩ := hcalm.exists_calls hrec
    (hserved.answers.decode.1.trans (by rw [System.bootRequest, requestOf_reset]))
    (datagram_length hlength)
  have h₀ : (networkTurns P n speed fun _ ↦ 0).Reachable networked (System.loaded n speed) v₀ :=
    .start ⟨hs, _, _, Net.zeroed_isStart, rfl, hcall⟩
  have hleads : (turns P n speed).Leads (reliable (LONG_MAX - 1)) (System.loaded n speed) w₀ s w :=
    (continued_counted h).leads
  have hent (s : System) (p : Prog System) (hp : (turns P n speed).enters s p) :
      (networkTurns P n speed fun _ ↦ 0).enters s p := hp
  obtain ⟨v, hl, -⟩ := hleads.realised (realises_reliable _) hent ⟨hcalm', hserver, hlength⟩
  exact ⟨v, hl.reachable h₀⟩

theorem processNext_submitted {V : Type} (G : Handler V Op Ans) (s : System) (v : V) :
    s.processNext.wp G.contract (fun _ ↦ True) (fun s' _ ↦ s'.submitted = s.submitted) v := by
  refine fun _ ↦ ⟨trivial, fun t v' _ ↦ ?_⟩
  dsimp only [Program.bind]
  split
  · trivial
  split
  · trivial
  split
  · trivial
  rw [Program.bind_eq, Program.wp_bind]
  let kept (_ : ℕ) (s' : System) (_ : V) := s'.submitted = s.submitted
  refine Program.wp_mono (Q := kept s.disk.nextResponseToReplyNum) (fun s' v' hs' ↦ ?_) ?_
  · rw [System.findNext, Program.bind_eq, Program.wp_bind]
    refine Program.wp_mono (fun r v'' _ ↦ ?_) (Program.wp_true _ _)
    obtain ⟨disk, next⟩ := r
    dsimp only
    split
    · split
      · trivial
      refine fun _ ↦ ⟨trivial, fun t' _ _ ↦ ?_⟩
      dsimp only [Program.bind]
      split
      · exact hs'
      · exact hs'
    · exact hs'
  · apply Program.wp_foldlM_range kept
    · rintro i s' v' - hs'
      cases s'.disk.getRequestIdToReqMapping (s'.disk.nextResponseToReplyIds i) with
      | none => trivial
      | some found =>
        obtain ⟨entry, disk⟩ := found
        unfold System.completeEntry
        dsimp only
        cases entry.req with
        | none => trivial
        | some req =>
          dsimp only
          split
          · trivial
          · exact hs'
    · rfl

theorem sector_slice {mem : ℕ → UInt8} {k : ℕ} (hk : k < sectorCount req)
    (hwhole : System.Whole req) :
    ((slice mem (req.pos * SECTOR_SIZE) req.bytes).drop (k * SECTOR_SIZE)).take SECTOR_SIZE =
      slice mem ((req.pos + k) * SECTOR_SIZE) SECTOR_SIZE := by
  have hbytes := hwhole.bytes_eq
  have hsplit : req.bytes =
      k * SECTOR_SIZE + (SECTOR_SIZE + (req.bytes - (k + 1) * SECTOR_SIZE)) := by
    rw [SECTOR_SIZE] at hbytes ⊢
    omega
  rw [hsplit, slice_add, slice_add, List.drop_left' (slice_length ..),
    List.take_left' (slice_length ..), Nat.add_mul]

/-- The emulated disk is an atomic store of sectors: a read that is completed has what every
sector it asked for held when it was submitted, however the requests, the batches and the
completions were interleaved and whatever the network lost or duplicated. -/
theorem reads_atomic {n speed : ℕ} {v : Net} (hn : n ≤ MAX_DISK_REQUESTS_IN_PARALLEL)
    (h : (networkTurns System.Whole n speed initial).Reachable networked s v) :
    (s.submitted.map (·.1)).Nodup ∧ ∀ c ∈ s.completed, c.req.dataDir = .read →
      c.segments.map List.length = c.req.segments.map List.length ∧
      ∃ before after, s.submitted = before ++ (c.requestId, c.req) :: after ∧
        ∀ k < sectorCount c.req, (c.segments.flatten.drop (k * SECTOR_SIZE)).take SECTOR_SIZE =
          sectorAfter initial before (c.req.pos + k) := by
  obtain ⟨w, -, hi⟩ := reachable_stores hn h
  refine ⟨hi.ids, fun c hc hdir ↦ ?_⟩
  obtain ⟨⟨before, after, hsplit, hbytes⟩, hlengths⟩ := hi.completed c hc hdir
  have hwhole := hi.whole
  rw [hsplit] at hwhole
  refine ⟨hlengths, before, after, hsplit, fun k hk ↦ ?_⟩
  rw [hbytes, sector_slice hk (hwhole (c.requestId, c.req) (by simp))]
  exact slice_storage (fun p hp ↦ hwhole p (List.mem_append_left _ hp)) _

theorem read_over : ∃ r ∈ session System.Whole 2 1000
    (.task :: .strategy [writeAt 0 5, readAt 1 5] :: List.replicate 3 .task),
    r.1.submitted = [(124, writeAt 0 5), (126, readAt 1 5)] ∧
      ∃ c ∈ r.1.completed, c.requestId = 126 ∧ c.req = readAt 1 5 := by
  decide +kernel

theorem reads_atomic_two : ∃ s v c,
    (networkTurns System.Whole 2 1000 fun _ ↦ 0).Reachable networked s v ∧
      s.submitted = [(124, writeAt 0 5), (126, readAt 1 5)] ∧ c ∈ s.completed ∧
        c.req = readAt 1 5 ∧
          c.segments.flatten.take SECTOR_SIZE =
            sectorAfter (fun _ ↦ 0) [(124, writeAt 0 5)] 5 := by
  obtain ⟨⟨s, w⟩, hs, hsubmitted, c, hc, hid, hreq⟩ := read_over
  obtain ⟨v, h⟩ := session_networked (by decide) hs
  obtain ⟨-, before, after, hsplit, hsectors⟩ :=
    (reads_atomic (by decide) h).2 c hc (congrArg Request.dataDir hreq)
  have hbefore : before = [(124, writeAt 0 5)] := by
    rw [show s.submitted = _ from hsubmitted, hid, hreq] at hsplit
    rcases before with _ | ⟨p, _ | ⟨q, before⟩⟩
    · exact absurd (Prod.mk.inj (List.cons.inj hsplit).1).1 (by decide)
    · rw [(List.cons.inj hsplit).1]
    · exact absurd (congrArg List.length hsplit) (by simp)
  have hcount : sectorCount c.req = 1 := by
    rw [hreq, sectorCount, Request.bytes, readAt, List.map_singleton, List.sum_singleton,
      List.length_replicate]
    rfl
  have hsector := hsectors 0 (by rw [hcount]; exact Nat.one_pos)
  rw [hbefore, Nat.zero_mul, List.drop_zero, show c.req.pos + 0 = 5 by rw [hreq]; rfl] at hsector
  exact ⟨s, v, c, h, hsubmitted, hc, hreq, hsector⟩

end Nctusde.EmulatorKernel
