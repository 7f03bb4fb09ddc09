import LiwusOS.Lib.Bytes

/-! # The addresses of the interface (`dhcp_callback`, `netstack_next_hop`, `netstack_scan_net`)

Addresses are `uint32_t` values in network byte order on a little-endian
machine: the first byte of an address is the low byte of the word. -/

namespace LiwusOS.Net
open LiwusOS.Lib

@[ext] structure NetConfig where
  myIp : UInt32
  gateway : UInt32
  netmask : UInt32
  dnsServer : UInt32
  deriving DecidableEq

/-! ## DHCP -/

/-- The offsets at which the rounds of the loop over the options begin, padding left out. -/
def optionsFrom (data : Buf) (opt : Nat) : List Nat :=
  if opt < 552 ∧ data opt ≠ 0xFF then
    if data opt = 0 then optionsFrom data (opt + 1)
    else opt :: optionsFrom data (opt + 2 + (data (opt + 1)).toNat)
  else []
termination_by 552 - opt

/-- A round of the loop: the addresses and `msg_type`. -/
def applyOption (data : Buf) (s : NetConfig × UInt8) (opt : Nat) : NetConfig × UInt8 :=
  match data opt with
  | 53 => (s.1, data (opt + 2))
  | 1 => ({ s.1 with netmask := data.u32 (opt + 2) }, s.2)
  | 3 => ({ s.1 with gateway := data.u32 (opt + 2) }, s.2)
  | 6 => ({ s.1 with dnsServer := data.u32 (opt + 2) }, s.2)
  | _ => s

def scanOptions (c : NetConfig) (data : Buf) : NetConfig × UInt8 :=
  (optionsFrom data 240).foldl (applyOption data) (c, 0)

/-- A BOOTREPLY with `htonl(dhcp_xid)`. -/
abbrev IsReply (data : Buf) : Prop := data 0 = 2 ∧ data.u32 4 = 0x78563412

/-- OFFER or ACK. -/
abbrev IsLease (msgType : UInt8) : Prop := msgType = 2 ∨ msgType = 5

/-- The length of the packet is not read. -/
def dhcpCallback (c : NetConfig) (data : Buf) : NetConfig :=
  if IsReply data then
    let s := scanOptions c data
    if IsLease s.2 then { s.1 with myIp := data.u32 16 } else s.1
  else c

/-- The values that replace the gateway, the netmask and the DNS server. -/
structure Replaced (P : UInt32 → Prop) (c c' : NetConfig) : Prop where
  gateway : c'.gateway = c.gateway ∨ P c'.gateway
  netmask : c'.netmask = c.netmask ∨ P c'.netmask
  dnsServer : c'.dnsServer = c.dnsServer ∨ P c'.dnsServer

/-- A word of the options of a packet of `len` bytes. -/
def InOptions (data : Buf) (len : Nat) (v : UInt32) : Prop := ∃ off, 240 ≤ off ∧ off + 4 ≤ len ∧ v = data.u32 off

/-- The options of a packet of `len` bytes say OFFER or ACK. -/
def HasLease (data : Buf) (len : Nat) : Prop :=
  ∃ opt ∈ optionsFrom data 240, opt + 2 < len ∧ data opt = 53 ∧ IsLease (data (opt + 2))

/-- A lease in a packet of `len` bytes is taken over: `yiaddr`, and words of the options. -/
structure TakesLease (data : Buf) (len : Nat) (c c' : NetConfig) : Prop where
  reply : IsReply data
  type : HasLease data len
  address : c'.myIp = c.myIp ∨ c'.myIp = data.u32 16
  others : Replaced (InOptions data len) c c'

/-- The last option `code` in a packet; of several it is the one that counts. -/
def lastOption (data : Buf) (code : UInt8) : Option Nat := (optionsFrom data 240).reverse.find? (data · == code)

/-- The codes of the options that set an address, with what they would replace. -/
def NetConfig.settings (c : NetConfig) : List (UInt8 × UInt32) := [(1, c.netmask), (3, c.gateway), (6, c.dnsServer)]

/-- What a packet of `len` bytes brings is what `c` has already, or comes with a lease. -/
structure Acceptable (c : NetConfig) (data : Buf) (len : Nat) : Prop where
  settings : ∀ s ∈ c.settings, ∀ opt ∈ lastOption data s.1,
    data.u32 (opt + 2) = s.2 ∨ HasLease data len ∧ InOptions data len (data.u32 (opt + 2))
  address : ∀ opt ∈ lastOption data 53, IsLease (data (opt + 2)) → data.u32 16 = c.myIp ∨ HasLease data len

variable {c c' : NetConfig} {data : Buf} {len : Nat}

/-- The word of the last option `code`. -/
def lastWord (data : Buf) (code : UInt8) (old : UInt32) : UInt32 :=
  (lastOption data code).elim old fun opt => data.u32 (opt + 2)

/-- The loop ends with the last option of each kind. -/
theorem scanOptions_eq (c : NetConfig) (data : Buf) : scanOptions c data =
    (⟨c.myIp, lastWord data 3 c.gateway, lastWord data 1 c.netmask, lastWord data 6 c.dnsServer⟩,
      (lastOption data 53).elim 0 fun opt => data (opt + 2)) := by
  unfold scanOptions lastWord lastOption
  induction optionsFrom data 240 using List.reverseRecOn with
  | nil => rfl
  | append_singleton l opt ih =>
    rw [List.foldl_append, ih, List.foldl_cons, List.foldl_nil, applyOption, List.reverse_append]
    split
    · rename_i h
      simp [h]
    · rename_i h
      simp [h]
    · rename_i h
      simp [h]
    · rename_i h
      simp [h]
    · rename_i h53 h1 h3 h6
      have hne : ∀ code ∈ [53, 1, 3, 6], (data opt == code) = false := by
        simpa using ⟨h53, h1, h3, h6⟩
      simp only [List.forall_mem_cons] at hne
      obtain ⟨h53, h1, h3, h6, -⟩ := hne
      simp [h53, h1, h3, h6]

theorem lastWord_iff {code : UInt8} {old : UInt32} {P : UInt32 → Prop} :
    lastWord data code old = old ∨ P (lastWord data code old) ↔
      ∀ opt ∈ lastOption data code, data.u32 (opt + 2) = old ∨ P (data.u32 (opt + 2)) := by
  unfold lastWord
  cases lastOption data code with
  | none => simp
  | some opt => simp

theorem replaced_iff (P : UInt32 → Prop) : Replaced P c (scanOptions c data).1 ↔
    ∀ s ∈ c.settings, ∀ opt ∈ lastOption data s.1, data.u32 (opt + 2) = s.2 ∨ P (data.u32 (opt + 2)) := by
  simp only [NetConfig.settings, List.forall_mem_cons, ← lastWord_iff, scanOptions_eq]
  exact ⟨fun ⟨h3, h1, h6⟩ => ⟨h1, h3, h6, nofun⟩, fun ⟨h1, h3, h6, _⟩ => ⟨h3, h1, h6⟩⟩

theorem Replaced.mono {P Q : UInt32 → Prop} (h : Replaced P c c') (hPQ : ∀ v, P v → Q v) : Replaced Q c c' :=
  ⟨h.gateway.imp_right (hPQ _), h.netmask.imp_right (hPQ _), h.dnsServer.imp_right (hPQ _)⟩

/-- The addresses change only by an accepted lease exactly if the packet is no reply,
or brings nothing new without a lease. -/
theorem dhcp_lawful_iff (c : NetConfig) (data : Buf) (len : Nat) :
    dhcpCallback c data = c ∨ TakesLease data len c (dhcpCallback c data) ↔ (IsReply data → Acceptable c data len) := by
  by_cases hr : IsReply data
  swap
  · exact iff_of_true (.inl (if_neg hr)) fun h => absurd h hr
  have htype : IsLease (scanOptions c data).2 ↔ ∃ opt ∈ lastOption data 53, IsLease (data (opt + 2)) := by
    rw [scanOptions_eq]
    cases lastOption data 53 with
    | none => simp [IsLease]
    | some opt => simp
  obtain ⟨new, hnew⟩ : ∃ new, dhcpCallback c data = new := ⟨_, rfl⟩
  have haddr : new.myIp = if IsLease (scanOptions c data).2 then data.u32 16 else c.myIp := by
    rw [← hnew, dhcpCallback, if_pos hr, scanOptions_eq]
    dsimp only
    split <;> rfl
  have hset : Replaced (fun v => HasLease data len ∧ InOptions data len v) c new ↔ ∀ s ∈ c.settings,
      ∀ opt ∈ lastOption data s.1, data.u32 (opt + 2) = s.2 ∨
        HasLease data len ∧ InOptions data len (data.u32 (opt + 2)) := by
    refine Iff.trans ?_ (replaced_iff fun v => HasLease data len ∧ InOptions data len v)
    rw [← hnew, dhcpCallback, if_pos hr]
    dsimp only
    split
    · exact ⟨fun h => ⟨h.gateway, h.netmask, h.dnsServer⟩, fun h => ⟨h.gateway, h.netmask, h.dnsServer⟩⟩
    · exact Iff.rfl
  have hsame : new = c ↔ new.myIp = c.myIp ∧ Replaced (fun _ => False) c new := by
    refine ⟨fun h => h ▸ ⟨rfl, .inl rfl, .inl rfl, .inl rfl⟩, fun ⟨h, h3, h1, h6⟩ => ?_⟩
    exact NetConfig.ext h (h3.resolve_right id) (h1.resolve_right id) (h6.resolve_right id)
  rw [hnew, forall_prop_of_true hr]
  by_cases hlease : HasLease data len
  · constructor
    · intro hlaw
      refine ⟨?_, fun _ _ _ => .inr hlease⟩
      refine hset.mp ?_
      rcases hlaw with heq | ⟨-, -, -, hrep⟩
      · exact (hsame.mp heq).2.mono fun _ => False.elim
      · exact hrep.mono fun _ h => ⟨hlease, h⟩
    · intro h
      refine .inr ⟨hr, hlease, ?_, ?_⟩
      · rw [haddr]
        split
        · exact .inr rfl
        · exact .inl rfl
      · exact (hset.mpr h.settings).mono fun _ h => h.2
  · constructor
    · intro hlaw
      obtain ⟨hip, hrep⟩ := hsame.mp (hlaw.resolve_right fun h => hlease h.type)
      refine ⟨?_, fun opt hopt hl => .inl ?_⟩
      · exact hset.mp (hrep.mono fun _ => False.elim)
      · rwa [haddr, if_pos (htype.mpr ⟨opt, hopt, hl⟩)] at hip
    · intro h
      refine .inl (hsame.mpr ⟨?_, ?_⟩)
      · rw [haddr]
        split
        · rename_i hl
          obtain ⟨opt, hopt, hl⟩ := htype.mp hl
          exact (h.address opt hopt hl).resolve_right hlease
        · rfl
      · exact (hset.mpr h.settings).mono fun _ h => hlease h.1

/-- A reply of 250 bytes with a message type and a router. -/
def leaseReply (msgType : UInt8) : Buf :=
  ((Buf.zero.set 0 2).putU32 4 0x78563412).putBytes 240 [53, 1, msgType, 3, 4, 10, 0, 2, 2, 0xFF]

/-- A NAK sets the gateway. -/
theorem nak_sets_gateway : dhcpCallback ⟨1, 2, 3, 4⟩ (leaseReply 6) = ⟨1, 0x0202000A, 3, 4⟩ ∧
    ¬ TakesLease (leaseReply 6) 250 ⟨1, 2, 3, 4⟩ ⟨1, 0x0202000A, 3, 4⟩ := by
  have hopts : optionsFrom (leaseReply 6) 240 = [240, 243] := by decide +kernel
  refine ⟨by decide +kernel, fun h => ?_⟩
  have htype := h.type
  rw [HasLease, hopts] at htype
  exact absurd htype (by decide +kernel)

/-! ## Routes -/

def netstackNextHop (c : NetConfig) (destIp : UInt32) : UInt32 :=
  if destIp &&& 0x00FFFFFF = c.myIp &&& 0x00FFFFFF then destIp else c.gateway

/-- The addresses that are probed. -/
def netstackScanNet (c : NetConfig) : List UInt32 :=
  ((List.range' 1 253).map fun host => (c.myIp &&& 0xFFFFFF00) ||| UInt32.ofNat host).filter (· ≠ c.myIp)

theorem and_eq_and_iff {a b m : UInt32} : a &&& m = b &&& m ↔
    ∀ i (_ : i < 32), m.toBitVec[i] = true → a.toBitVec[i] = b.toBitVec[i] := by
  rw [← UInt32.toBitVec_inj, UInt32.toBitVec_and, UInt32.toBitVec_and]
  constructor
  · intro h i hi hm
    have hbit := congrArg (·[i]) h
    simpa [hm] using hbit
  · intro h
    refine BitVec.eq_of_getElem_eq fun i hi => ?_
    cases hm : m.toBitVec[i]
    · simp [hm]
    · simp [hm, h i hi hm]

/-- The word with the bits `a` and `b`. -/
def bits (a b : Nat) : UInt32 := ⟨BitVec.twoPow 32 a ||| BitVec.twoPow 32 b⟩

theorem getElem_bits {a b i : Nat} (hi : i < 32) : (bits a b).toBitVec[i] = (decide (i = a) || decide (i = b)) := by
  simp only [bits, BitVec.getElem_or, BitVec.getElem_twoPow]

/-- An address with two bits changed stays in the net if the mask has neither. -/
theorem flip_and_iff {my m : UInt32} {a b : Nat} (ha : a < 32) (hb : b < 32) :
    (my ^^^ bits a b) &&& m = my &&& m ↔ m.toBitVec[a] = false ∧ m.toBitVec[b] = false := by
  rw [and_eq_and_iff]
  simp only [UInt32.toBitVec_xor, BitVec.getElem_xor, getElem_bits]
  constructor
  · intro h
    exact ⟨by simpa using mt (h a ha), by simpa using mt (h b hb)⟩
  · rintro ⟨h1, h2⟩ i hi hm
    have hia : i ≠ a := fun h => by subst h; rw [h1] at hm; cases hm
    have hib : i ≠ b := fun h => by subst h; rw [h2] at hm; cases hm
    simp [hia, hib]

/-- A mask other than 255.255.255.0 puts two addresses on the wrong side. -/
theorem masks_apart (my : UInt32) {m : UInt32} (h : m ≠ 0x00FFFFFF) : ∃ d d' : UInt32, d ≠ d' ∧
    ∀ x ∈ [d, d'], ¬ (x &&& m = my &&& m ↔ x &&& 0x00FFFFFF = my &&& 0x00FFFFFF) := by
  have hmask : ∀ i (_ : i < 32), (0x00FFFFFF : UInt32).toBitVec[i] = decide (i < 24) := by decide
  obtain ⟨a, b, ha, hb, hab, hside⟩ : ∃ a b, ∃ (ha : a < 32) (hb : b < 32), a ≠ b ∧
      (24 ≤ a ∧ 24 ≤ b ∧ m.toBitVec[a] = true ∨ a < 24 ∧ m.toBitVec[a] = false ∧ m.toBitVec[b] = false) := by
    by_cases htop : ∃ i, ∃ (hi : i < 32), 24 ≤ i ∧ m.toBitVec[i] = true
    · obtain ⟨i, hi, h24, hm⟩ := htop
      by_cases hi24 : i = 24
      · exact ⟨i, 25, hi, by omega, by omega, .inl ⟨h24, by omega, hm⟩⟩
      · exact ⟨i, 24, hi, by omega, hi24, .inl ⟨h24, by omega, hm⟩⟩
    · push Not at htop
      obtain ⟨i, hi, hlow, hm⟩ : ∃ i, ∃ (hi : i < 32), i < 24 ∧ m.toBitVec[i] = false := by
        by_contra hall
        push Not at hall
        refine h (UInt32.toBitVec_inj.mp (BitVec.eq_of_getElem_eq fun i hi => ?_))
        rw [hmask i hi]
        by_cases h24 : i < 24
        · simpa [h24] using hall i hi h24
        · simpa [h24] using htop i hi (by omega)
      exact ⟨i, 24, hi, by omega, by omega, .inr ⟨hlow, hm, by simpa using htop 24 (by omega) le_rfl⟩⟩
  refine ⟨my ^^^ bits a a, my ^^^ bits a b, ?_, fun x hx => ?_⟩
  · intro heq
    have hbit := congrArg (fun x : UInt32 => x.toBitVec[b]) ((UInt32.xor_right_inj my).mp heq)
    simp [getElem_bits, hab.symm] at hbit
  · have hwrong : ∀ {c} (hc : c < 32), c = a ∨ c = b →
        ¬ ((my ^^^ bits a c) &&& m = my &&& m ↔ (my ^^^ bits a c) &&& 0x00FFFFFF = my &&& 0x00FFFFFF) := by
      intro c hc hcases
      rw [flip_and_iff ha hc, flip_and_iff ha hc, hmask a ha, hmask c hc]
      rcases hside with ⟨h24, h24', hm⟩ | ⟨h24, hm, hm'⟩
      · rcases hcases with rfl | rfl <;> simp [hm, h24, h24']
      · rcases hcases with rfl | rfl <;> simp [hm, hm', h24]
    rcases List.mem_pair.mp hx with rfl | rfl
    · exact hwrong ha (.inl rfl)
    · exact hwrong hb (.inr rfl)

/-- Every probed address is sent to the gateway. -/
theorem scan_nextHop (c : NetConfig) : ∀ ip ∈ netstackScanNet c, netstackNextHop c ip = c.gateway := by
  intro ip hip
  obtain ⟨hip, hself⟩ := List.mem_filter.mp hip
  obtain ⟨host, hhost, rfl⟩ := List.mem_map.mp hip
  have hzero : ∀ host ∈ List.range' 1 253, UInt32.ofNat host &&& 0xFFFFFF00 = 0 &&& 0xFFFFFF00 := by decide +kernel
  have hbits : ∀ i (_ : i < 32), (0x00FFFFFF : UInt32).toBitVec[i] = true ∨
      (0xFFFFFF00 : UInt32).toBitVec[i] = true := by decide
  refine if_neg fun hlow => ?_
  rw [decide_eq_true_iff] at hself
  refine hself (UInt32.toBitVec_inj.mp (BitVec.eq_of_getElem_eq fun i hi => ?_))
  rcases hbits i hi with hm | hm
  · exact and_eq_and_iff.mp hlow i hi hm
  · have := and_eq_and_iff.mp (hzero host hhost) i hi hm
    rw [UInt32.toBitVec_or, UInt32.toBitVec_and, BitVec.getElem_or, BitVec.getElem_and, this, hm]
    simp

/-- Routes follow the netmask exactly if it is 255.255.255.0. Probed addresses all go to
the gateway, so they are never all local. -/
theorem routes (c : NetConfig) : ((∀ d, netstackNextHop c d =
      if d &&& c.netmask = c.myIp &&& c.netmask then d else c.gateway) ↔ c.netmask = 0x00FFFFFF) ∧
    (∀ ip ∈ netstackScanNet c, netstackNextHop c ip = c.gateway) ∧
    ¬ ∀ ip ∈ netstackScanNet c, netstackNextHop c ip = ip := by
  refine ⟨⟨fun h => ?_, fun h d => by rw [h]; rfl⟩, scan_nextHop c, fun h => ?_⟩
  · by_contra hmask
    obtain ⟨d, d', hne, hwrong⟩ := masks_apart c.myIp hmask
    -- one of the two is not the gateway
    obtain ⟨x, hx, hg⟩ : ∃ x ∈ [d, d'], x ≠ c.gateway := by
      by_cases hd : d = c.gateway
      · exact ⟨d', by simp, fun hd' => hne (hd.trans hd'.symm)⟩
      · exact ⟨d, by simp, hd⟩
    have hroute := h x
    rw [netstackNextHop] at hroute
    refine hwrong x hx ?_
    split at hroute <;> split at hroute <;> simp_all
  · -- three hosts, of which one is neither the machine nor the gateway
    have hprobe : ∀ host ∈ [1, 2, 3], (c.myIp &&& 0xFFFFFF00) ||| UInt32.ofNat host = c.myIp ∨
        (c.myIp &&& 0xFFFFFF00) ||| UInt32.ofNat host = c.gateway := by
      intro host hhost
      refine or_iff_not_imp_left.mpr fun hself => ?_
      have hmem : (c.myIp &&& 0xFFFFFF00) ||| UInt32.ofNat host ∈ netstackScanNet c := by
        refine List.mem_filter.mpr ⟨List.mem_map.mpr ⟨host, ?_, rfl⟩, decide_eq_true hself⟩
        simp only [List.mem_cons, List.not_mem_nil, or_false] at hhost
        rw [List.mem_range'_1]
        omega
      rw [← h _ hmem, scan_nextHop c _ hmem]
    have hne : ∀ i j, ∀ k (_ : k < 32), (UInt32.ofNat i).toBitVec[k] = false → (UInt32.ofNat j).toBitVec[k] = true →
        (0xFFFFFF00 : UInt32).toBitVec[k] = false →
        (c.myIp &&& 0xFFFFFF00) ||| UInt32.ofNat i ≠ (c.myIp &&& 0xFFFFFF00) ||| UInt32.ofNat j := by
      intro i j k hk hi hj hz heq
      have hbit := congrArg (fun x : UInt32 => x.toBitVec[k]) heq
      simp only [UInt32.toBitVec_or, UInt32.toBitVec_and, BitVec.getElem_or, BitVec.getElem_and, hi, hj, hz] at hbit
      simp at hbit
    have h21 := hne 2 1 0 (by decide) (by decide) (by decide) (by decide)
    have h12 := hne 1 3 1 (by decide) (by decide) (by decide) (by decide)
    have h23 := hne 2 3 0 (by decide) (by decide) (by decide) (by decide)
    simp only [List.forall_mem_cons] at hprobe
    obtain ⟨h1, h2, h3, -⟩ := hprobe
    grind

/-- 10.0.2.15 probes 1.0.2.15, which goes to the gateway. -/
theorem scan_leaves_net : 0x0F020001 ∈ netstackScanNet ⟨0x0F02000A, 0x0202000A, 0x00FFFFFF, 0⟩ ∧
    netstackNextHop ⟨0x0F02000A, 0x0202000A, 0x00FFFFFF, 0⟩ 0x0F020001 = 0x0202000A := by
  decide +kernel

end LiwusOS.Net
