import AerOS.Spec.Raid

namespace AerOS.Proof.Raid
open AerOS.Raid Lib.Action Function List Machine
variable {D : Type}
variable {index : Nat} {volume : Volume D}
variable {m : Machine D} {volume' : Volume D}

def Roster (roster : Nat → Option (Nat → Option D)) (m : Machine D) : Prop :=
  ∀ index, (m.volume index).map Volume.members = roster index

theorem roster_self (m : Machine D) : Roster (fun index => (m.volume index).map Volume.members) m :=
  fun _ => rfl

theorem volume_congr {D : Type} {m m' : Machine D} (table : m'.volumes = m.volumes) (index : Nat) :
    m'.volume index = m.volume index := by
  unfold Machine.volume
  rw [table]

theorem volume_put (m : Machine D) (bound : index < maxVolumes) (volume : Option (Volume D)) (j : Nat) :
    (m.put index volume).volume j = if j = index then volume else m.volume j := by
  unfold Machine.volume put
  by_cases same : j = index
  · subst same
    simp [bound]
  · simp [same]

theorem volume_bound (h : m.volume index = some volume) : index < maxVolumes := by
  unfold Machine.volume at h
  split at h
  · assumption
  · cases h

variable {roster : Nat → Option (Nat → Option D)} (io : Answers D)

theorem Roster.put (h : Roster roster m)
    (found : m.volume index = some volume) (same : volume'.members = volume.members) :
    Roster roster (m.put index (some volume')) := by
  intro j
  rw [volume_put m (volume_bound found), ← h j]
  split
  · next eq => rw [eq, found, Option.map_some, Option.map_some, same]
  · rfl

theorem store_sectors [DecidableEq D] (m : Machine D) (member other : D) (lba count : Nat) (run : Run) :
    ((m.store member lba count run).disks other).sectors = (m.disks other).sectors := by
  unfold store
  dsimp only
  by_cases same : other = member
  · subst same
    rw [update_self]
    rfl
  · rw [update_of_ne same]

theorem usable_store [DecidableEq D] (m : Machine D) (member : D) (lba count : Nat) (run : Run) :
    (m.store member lba count run).usable = m.usable := by
  funext other
  rw [usable, store_sectors, usable]

section
variable {P : Machine D → Prop}
  (h : ∀ m m' : Machine D, m'.volumes = m.volumes → m'.usable = m.usable → P m → P m')
include h

theorem preserves_memberRead (member : D) (lba count : Nat) :
    Preserves P (memberRead io member lba count) := by
  apply preserves_get_bind
  intro m hm
  have ticked : P m.tick := h m m.tick rfl rfl hm
  simp only [wp_bind, wp_modify]
  split
  · exact ticked
  · exact ticked

theorem preserves_memberWrite [DecidableEq D] (member : D) (lba count : Nat) (run : Run) :
    Preserves P (memberWrite io member lba count run) := by
  apply preserves_get_bind
  intro m hm
  have ticked : P m.tick := h m m.tick rfl rfl hm
  split
  · exact ticked
  split
  · exact h m.tick _ rfl (usable_store _ _ _ _ _) ticked
  · exact h m.tick _ rfl (usable_store _ _ _ _ _) ticked

theorem preserves_persistSlot [DecidableEq D] (volume : Volume D) (slot : Nat) :
    Preserves P (persistSlot io volume slot) := by
  unfold persistSlot
  split
  · exact preserves_pure _
  split
  · exact preserves_pure _
  apply preserves_get_bind
  intro m hm
  dsimp only
  split
  · exact hm
  · exact preserves_bind (preserves_memberWrite io h _ _ _ _) (fun _ => preserves_pure _) m hm

theorem preserves_persist [DecidableEq D] (index : Nat) : Preserves P (persist io index) := by
  apply preserves_get_bind
  intro m hm
  cases m.volume index with
  | none => exact hm
  | some volume => exact preserves_forEach (fun slot _ => preserves_persistSlot io h volume slot) m hm

theorem preserves_copyOver [DecidableEq D] (source member : D) (sectors fuel lba : Nat) :
    Preserves P (copyOver io source member sectors fuel lba) := by
  induction fuel generalizing lba with
  | zero =>
    unfold copyOver
    split
    · exact preserves_throw _
    · exact preserves_pure _
  | succ fuel ih =>
    unfold copyOver
    split
    · exact preserves_pure _
    refine preserves_bind (preserves_memberRead io h _ _ _) fun run => ?_
    cases run with
    | none => exact preserves_pure _
    | some run =>
      refine preserves_bind (preserves_memberWrite io h _ _ _ _) fun wrote => ?_
      cases wrote with
      | false => exact preserves_pure _
      | true => exact ih _

theorem preserves_transferRun [DecidableEq D] (direction : Direction) (done : Nat) (member : D) (lba count : Nat) :
    Preserves P (transferRun io direction done member lba count) := by
  cases direction with
  | read => exact preserves_memberRead io h _ _ _
  | write _ =>
    refine preserves_bind (preserves_memberWrite io h _ _ _ _) fun wrote => ?_
    cases wrote with
    | false => exact preserves_pure _
    | true => exact preserves_pure _

theorem preserves_spread [DecidableEq D] (volume : Volume D) (lba count : Nat) (direction : Direction)
    (fuel done : Nat) (buffer : Run) :
    Preserves P (spread io volume lba count direction fuel done buffer) := by
  induction fuel generalizing done buffer with
  | zero =>
    unfold spread
    split
    · exact preserves_throw _
    · exact preserves_pure _
  | succ fuel ih =>
    unfold spread
    split
    · exact preserves_pure _
    apply preserves_get_bind
    intro m hm
    dsimp only
    split
    · exact hm
    refine preserves_bind (preserves_transferRun io h _ _ _ _ _) (fun piece => ?_) m hm
    cases piece with
    | none => exact preserves_pure _
    | some piece => exact ih _ _

end

theorem roster_congr (m m' : Machine D) (same : m'.volumes = m.volumes) (h : Roster roster m) :
    Roster roster m' := by
  intro index
  rw [← h index, volume, same]
  rfl

theorem bump_roster [DecidableEq D] (h : Roster roster m)
    (found : m.volume index = some volume) (same : volume'.members = volume.members) :
    wp (bump io index volume') (fun _ m' => Roster roster m') (fun _ m' => Roster roster m') m := by
  unfold bump
  have stored := h.put found same
  split
  · have place : (m.put index (some volume')).volume index = some volume' := by
      rw [volume_put m (volume_bound found), if_pos rfl]
    exact preserves_persist io (fun m m' same _ => roster_congr m m' same) index _ (stored.put place rfl)
  · exact stored

theorem markFailed_roster [DecidableEq D] (index slot : Nat) : Preserves (Roster roster) (markFailed io index slot) := by
  apply preserves_get_bind
  intro m hm
  cases found : m.volume index with
  | none => exact hm
  | some volume =>
    dsimp only
    split
    · exact bump_roster io hm found rfl
    · exact hm

theorem memberFailed_roster (index slot : Nat) :
    Preserves (Roster roster) (memberFailed index slot : Step D Bool) := by
  apply preserves_get_bind
  intro m hm
  cases m.volume index with
  | none => exact hm
  | some volume => exact hm

theorem mirrorRead_roster [DecidableEq D] (index : Nat) (volume : Volume D) (lba count : Nat) (slots : List Nat) :
    Preserves (Roster roster) (mirrorRead io index volume lba count slots) := by
  induction slots with
  | nil => exact preserves_pure _
  | cons slot _ ih =>
    refine preserves_bind (memberFailed_roster index slot) fun failed => ?_
    cases failed with
    | true => exact ih
    | false =>
      cases volume.members slot with
      | none => exact ih
      | some _ =>
        refine preserves_bind (preserves_memberRead io (fun m m' same _ => roster_congr m m' same) _ _ _) fun run => ?_
        cases run with
        | some run => exact preserves_pure _
        | none => exact preserves_bind (markFailed_roster io index slot) fun _ => ih

theorem mirrorWrite_roster [DecidableEq D] (index : Nat) (volume : Volume D) (lba count : Nat) (data : Run)
    (slots : List Nat) (wrote : Bool) :
    Preserves (Roster roster) (mirrorWrite io index volume lba count data slots wrote) := by
  induction slots generalizing wrote with
  | nil => exact preserves_pure _
  | cons slot _ ih =>
    refine preserves_bind (memberFailed_roster index slot) fun failed => ?_
    cases failed with
    | true => exact ih _
    | false =>
      cases volume.members slot with
      | none => exact ih _
      | some _ =>
        refine preserves_bind (preserves_memberWrite io (fun m m' same _ => roster_congr m m' same) _ _ _ _) fun ok => ?_
        cases ok with
        | true => exact ih _
        | false => exact preserves_bind (markFailed_roster io index slot) fun _ => ih _

theorem transfer_roster [DecidableEq D] (index lba count available : Nat) (direction : Direction) :
    Preserves (Roster roster) (transfer io index lba count available direction) := by
  apply preserves_get_bind
  intro m hm
  cases m.volume index with
  | none => exact hm
  | some volume =>
    dsimp only
    split
    · exact hm
    split
    · exact mirrorRead_roster io _ _ _ _ _ m hm
    · refine preserves_bind (mirrorWrite_roster io _ _ _ _ _ _ _) (fun wrote => ?_) m hm
      cases wrote with
      | true => exact preserves_pure _
      | false => exact preserves_pure _
    · exact preserves_spread io (fun m m' same _ => roster_congr m m' same) _ _ _ _ _ _ _ m hm

theorem fail_roster [DecidableEq D] (index slot : Nat) : Preserves (Roster roster) (fail io index slot) := by
  apply preserves_get_bind
  intro m hm
  cases found : m.volume index with
  | none => exact hm
  | some volume =>
    dsimp only
    split
    · exact hm
    split
    · exact hm
    rw [wp_bind]
    exact bump_roster io hm found rfl

variable {io : Answers D} {member : D} {inUse : D → Bool} {found : Found D} {members : List D}
variable {slot : Nat}
variable {level : Level} {ok : Nat → Machine D → Prop} {err : Fault → Machine D → Prop} {header : Header}
  {entry : D × Header} {xs : List Nat}

theorem freeVolume_some (h : freeVolume m.volumes = some slot) :
    slot < maxVolumes ∧ m.volume slot = none := by
  have bound : slot < maxVolumes := mem_range.mp (mem_of_find?_eq_some h)
  have free := find?_some h
  refine ⟨bound, ?_⟩
  rw [volume, if_pos bound]
  simpa using free

theorem not_fills_of_free [DecidableEq D] (h : ((range maxVolumes).any fun index =>
      (m.volumes index).any fun volume => volume.has member) = false) (index slot : Nat) :
    ¬ m.Fills index slot member := by
  rintro ⟨volume, found, bound, fills⟩
  have small := volume_bound found
  rw [Machine.volume, if_pos small] at found
  rw [any_eq_false] at h
  apply h index (mem_range.mpr small)
  rw [found, Option.any_some, Volume.has, any_eq_true]
  exact ⟨slot, mem_range.mpr bound, by simpa using fills⟩

theorem checkMembers_ok [DecidableEq D] {before rest : List D} {smallest total : Nat} {result : Nat × Nat}
    (h : checkMembers inUse m before rest smallest total = .ok result) :
    rest.Nodup ∧ (∀ member ∈ rest, member ∉ before) ∧
      (∀ member ∈ rest, ∀ index slot, ¬ m.Fills index slot member) ∧ (∀ member ∈ rest, m.usable member ≠ 0) ∧
      result.1 = (rest.map m.usable).foldl min smallest ∧ result.2 = total + (rest.map m.usable).sum := by
  induction rest generalizing before smallest total with
  | nil =>
    cases h
    simp
  | cons member rest ih =>
    unfold checkMembers at h
    dsimp only at h
    split_ifs at h with unusable known taken used large
    obtain ⟨nodup, apart, free, usable, small, sum⟩ := ih h
    refine ⟨?_, ?_, ?_, ?_, ?_, ?_⟩
    · refine nodup_cons.mpr ⟨fun mem => ?_, nodup⟩
      exact apart member mem (by simp)
    · intro other mem
      rcases mem_cons.mp mem with rfl | mem
      · exact known
      · exact fun inside => apart other mem (by simp [inside])
    · intro other mem
      rcases mem_cons.mp mem with rfl | mem
      · exact not_fills_of_free (by simpa using taken)
      · exact free other mem
    · intro other mem
      rcases mem_cons.mp mem with rfl | mem
      · exact unusable
      · exact usable other mem
    · rw [small, map_cons, foldl_cons]
    · rw [sum, map_cons, sum_cons, Nat.add_assoc]

structure Created (m : Machine D) (uuid : Uuid) (level : Level) (members : List D) (slot : Nat)
    (volume : Volume D) : Prop where
  bound : slot < maxVolumes
  free : m.volume slot = none
  uuid_eq : volume.uuid = uuid
  level_eq : volume.level = level
  members_eq : ∀ index, volume.members index = members[index]?
  failed_eq : ∀ index, volume.failed index = false
  count_eq : volume.count = members.length
  events_eq : volume.events = 1
  count_pos : 0 < members.length
  count_le : members.length ≤ maxMembers
  nodup : members.Nodup
  unused : ∀ member ∈ members, ∀ index slot, ¬ m.Fills index slot member
  usable : ∀ member ∈ members, m.usable member ≠ 0
  mirror_size : level = .mirror → volume.sectors = (members.map m.usable).foldl min (2 ^ 64 - 1)
  stripe_size : level = .stripe → 0 < volume.chunk ∧ volume.chunk ∣ volume.perMember ∧
      volume.sectors = volume.perMember * members.length ∧
      volume.perMember ≤ (members.map m.usable).foldl min (2 ^ 64 - 1)
  linear_size : level = .linear → volume.sectors = (members.map m.usable).sum

theorem count_of_not_wrong {count : Nat} (h : ¬ wrongCount level count = true) :
    0 < count ∧ count ≤ maxMembers := by
  cases level with
  | linear =>
    simp only [wrongCount, Bool.or_eq_true, decide_eq_true_eq, not_or] at h
    omega
  | stripe =>
    simp only [wrongCount, Bool.not_eq_true', Bool.not_eq_false, Bool.and_eq_true, decide_eq_true_eq] at h
    omega
  | mirror =>
    simp only [wrongCount, Bool.not_eq_true', Bool.not_eq_false, Bool.and_eq_true, decide_eq_true_eq] at h
    omega

theorem create_wp [DecidableEq D] {uuid : Uuid} {chunk : Nat} (refused : ∀ fault, err fault m)
    (made : ∀ slot volume, Created m uuid level members slot volume →
      wp (persist io slot) (fun _ m' => ok slot m') err (m.put slot (some volume))) :
    wp (create io inUse uuid level chunk members) ok err m := by
  unfold create
  dsimp only
  split
  · exact refused _
  next count =>
    cases chunkIs : chunkOf level chunk with
    | none => exact refused _
    | some _ =>
      rw [wp_bind, wp_get]
      cases freeIs : freeVolume m.volumes with
      | none => exact refused _
      | some slot =>
        cases checked : checkMembers inUse m [] members (2 ^ 64 - 1) 0 with
        | error fault => exact refused _
        | ok _ =>
          dsimp only
          split
          · exact refused _
          simp only [wp_bind, setVolume, wp_modify]
          obtain ⟨nodup, -, free, usable, small, sum⟩ := checkMembers_ok checked
          obtain ⟨bound, vacant⟩ := freeVolume_some freeIs
          obtain ⟨positive, few⟩ := count_of_not_wrong count
          apply made
          refine ⟨bound, vacant, rfl, rfl, fun _ => rfl, fun _ => rfl, rfl, rfl, positive, few,
            nodup, free, usable, ?_, ?_, ?_⟩
          · intro mirror
            subst mirror
            exact small
          · intro stripe
            subst stripe
            simp only [chunkOf] at chunkIs
            split_ifs at chunkIs with odd
            obtain rfl := Option.some.inj chunkIs
            refine ⟨Nat.pos_of_ne_zero fun zero => odd (.inl zero), Nat.dvd_mul_left _ _, rfl, ?_⟩
            rw [← small]
            exact Nat.div_mul_le_self _ _
          · intro linear
            subst linear
            exact sum.trans (Nat.zero_add _)

theorem readHeader_wp {ok : Option Header → Machine D → Prop}
    (blank : (m.disks member).sectors = 0 → ok none m) (seen : (m.disks member).sectors ≠ 0 →
      ok (if io.read m.transfers member ((m.disks member).sectors - 1) then m.header member else none)
        m.tick) : wp (readHeader io member) ok err m := by
  unfold readHeader
  rw [wp_bind, wp_get]
  dsimp only
  split
  next zero => exact blank zero
  next sectors =>
    have seen := seen sectors
    have within : (m.disks member).sectors - 1 + 1 ≤ (m.disks member).sectors := by omega
    unfold memberRead
    simp only [wp_bind, wp_get, wp_modify, within, true_and]
    unfold header at seen
    rw [if_neg sectors] at seen
    split
    next read =>
      rw [if_pos read] at seen
      exact seen
    next read =>
      rw [if_neg read] at seen
      exact seen

def Found.fill (found : Found D) (entries : List (D × Header)) : Found D :=
  entries.foldl (fun found entry => found.add entry.1 entry.2) found

theorem readable_congr (m m' : Machine D) (same : m'.disks = m.disks) (io : Answers D) (turn : Nat)
    (members : List D) : m'.readable io turn members = m.readable io turn members := by
  induction members generalizing turn with
  | nil => rfl
  | cons _ _ ih => simp only [readable, header, same, ih]

theorem gather_wp : wp (gather io members found)
      (fun found' m' => found' = Found.fill found (m.readable io m.transfers members) ∧
        m'.volumes = m.volumes ∧ m'.disks = m.disks) (fun _ _ => False) m := by
  induction members generalizing found m with
  | nil => exact ⟨rfl, rfl, rfl⟩
  | cons member rest ih =>
    unfold gather
    rw [wp_bind]
    apply readHeader_wp
    · intro zero
      rw [readable, if_pos zero]
      exact ih
    intro sectors
    rw [readable, if_neg sectors]
    have later := readable_congr m m.tick rfl io (m.transfers + 1) rest
    cases io.read m.transfers member ((m.disks member).sectors - 1) with
    | false =>
      rw [← later]
      exact ih
    | true =>
      cases m.header member with
      | none =>
        rw [← later]
        exact ih
      | some header =>
        rw [← later]
        exact ih

theorem fill_first (h : found.first = some header)
    (entries : List (D × Header)) : (Found.fill found entries).first = some header := by
  induction entries generalizing found with
  | nil => exact h
  | cons entry _ ih =>
    apply ih
    change (found.add entry.1 entry.2).first = some header
    unfold Found.add
    rw [h]
    dsimp only
    split
    · exact h
    · rfl

theorem fill_slots (h : found.first = some header) (entries : List (D × Header)) (slot : Nat) :
    (Found.fill found entries).slots slot = ((entries.reverse.find? fun entry =>
        entry.2.uuid = header.uuid ∧ entry.2.slot = slot).or (found.slots slot)) := by
  induction entries generalizing found with
  | nil => rfl
  | cons entry _ ih =>
    have first : (found.add entry.1 entry.2).first = some header := fill_first h [entry]
    have step := ih first
    rw [reverse_cons, find?_append, Option.or_assoc]
    refine step.trans (congrArg _ ?_)
    unfold Found.add
    rw [h]
    by_cases same : header.uuid = entry.2.uuid
    · by_cases here : entry.2.slot = slot
      · simp [same, here]
      · simp [same, here, update_of_ne (Ne.symm here)]
    · simp [same, Ne.symm same]

theorem fill_kept (first : D × Header) (rest : List (D × Header)) (slot : Nat) :
    (Found.fill ⟨none, fun _ => none⟩ (first :: rest)).slots slot = kept first rest slot := by
  have start : (Found.add ⟨none, fun _ => none⟩ first.1 first.2).first = some first.2 := rfl
  refine (fill_slots start rest slot).trans ?_
  unfold kept
  by_cases here : first.2.slot = slot
  · simp [Found.add, here]
  · simp [Found.add, here, update_of_ne (Ne.symm here)]

theorem readable_header {turn : Nat} (h : entry ∈ m.readable io turn members) :
    entry.1 ∈ members ∧ m.header entry.1 = some entry.2 := by
  induction members generalizing turn with
  | nil => cases h
  | cons member rest ih =>
    have lift : ∀ {turn}, entry ∈ m.readable io turn rest →
        entry.1 ∈ member :: rest ∧ m.header entry.1 = some entry.2 := by
      intro turn later
      obtain ⟨mem, header⟩ := ih later
      exact ⟨mem_cons_of_mem _ mem, header⟩
    unfold readable at h
    dsimp only at h
    split_ifs at h with zero read
    · exact lift h
    · cases header : m.header member with
      | none =>
        rw [header] at h
        exact lift h
      | some _ =>
        rw [header] at h
        rcases mem_cons.mp h with rfl | later
        · exact ⟨mem_cons_self, header⟩
        · exact lift later
    · exact lift h

theorem kept_mem {first : D × Header} {rest : List (D × Header)} (h : kept first rest slot = some entry) :
    entry ∈ first :: rest ∧ entry.2.uuid = first.2.uuid ∧ entry.2.slot = slot := by
  have mem := mem_of_find?_eq_some h
  have matched := find?_some h
  exact ⟨mem_reverse.mp mem, by simpa using matched⟩

structure Assembled (m : Machine D) (io : Answers D) (members : List D) (first : D × Header)
    (rest : List (D × Header)) (slot : Nat) (volume : Volume D) : Prop where
  readable : m.readable io m.transfers members = first :: rest
  bound : slot < maxVolumes
  free : m.volume slot = none
  fresh : ∀ index other, m.volume index = some other → other.uuid ≠ first.2.uuid
  uuid_eq : volume.uuid = first.2.uuid
  level_eq : volume.level = first.2.level
  count_eq : volume.count = first.2.count
  members_eq : ∀ index, volume.members index =
    if index < first.2.count then (kept first rest index).map Prod.fst else none
  failed_eq : ∀ index, volume.failed index = (decide (index < first.2.count) &&
    (Found.fill ⟨none, fun _ => none⟩ (first :: rest)).failed index)
  events_eq : volume.events = (Found.fill ⟨none, fun _ => none⟩ (first :: rest)).newest
  all_present : first.2.level ≠ .mirror → ∀ index < first.2.count, volume.failed index = false
  size_le : ∀ index entry, index < first.2.count → kept first rest index = some entry →
    (first.2.level = .mirror → volume.sectors ≤ m.usable entry.1) ∧
    (first.2.level = .stripe → volume.perMember ≤ m.usable entry.1)
  size_pos : first.2.level = .mirror →
    (∀ index entry, kept first rest index = some entry → 0 < m.usable entry.1) → 0 < volume.sectors
  stripe_size : first.2.level = .stripe → 0 < volume.chunk ∧ volume.chunk ∣ volume.perMember ∧
      volume.sectors = volume.perMember * volume.count
  linear_size : first.2.level = .linear →
    volume.sectors = (((List.range first.2.count).filterMap (kept first rest)).map fun entry =>
      m.usable entry.1).sum

theorem foldl_min_pos {start : Nat} (first : 0 < start) (h : ∀ x ∈ xs, 0 < x) : 0 < xs.foldl min start := by
  induction xs generalizing start with
  | nil => exact first
  | cons x xs ih =>
    exact ih (Nat.lt_min.mpr ⟨first, h x mem_cons_self⟩) fun y mem =>
      h y (mem_cons_of_mem x mem)

theorem foldl_min_le (start : Nat) {x : Nat} (h : x ∈ xs) : xs.foldl min start ≤ x := by
  have start_le : ∀ (ys : List Nat) (a : Nat), ys.foldl min a ≤ a := by
    intro ys
    induction ys with
    | nil => exact fun a => Nat.le_refl a
    | cons y ys ih => exact fun a => (ih _).trans (Nat.min_le_left a y)
  induction xs generalizing start with
  | nil => cases h
  | cons y ys ih =>
    rcases mem_cons.mp h with rfl | mem
    · exact (start_le ys _).trans (Nat.min_le_right start x)
    · exact ih _ mem

theorem assembleFrom_wp
    (refused : ∀ fault (m' : Machine D), m'.volumes = m.volumes → m'.disks = m.disks → err fault m')
    (made : ∀ first rest slot volume (m' : Machine D), Assembled m io members first rest slot volume →
      m'.volumes = m.volumes → m'.disks = m.disks → ok slot (m'.put slot (some volume))) :
    wp (assembleFrom io members) ok err m := by
  unfold assembleFrom
  rw [wp_bind]
  refine wp_of_ok gather_wp ?_
  rintro found m' ⟨foundIs, volumes, disks⟩
  cases readable : m.readable io m.transfers members with
  | nil =>
    rw [readable] at foundIs
    rw [foundIs]
    exact refused _ m' volumes disks
  | cons first rest =>
    rw [readable] at foundIs
    have firstIs : found.first = some first.2 := by
      rw [foundIs]
      have start : (Found.add ⟨none, fun _ => none⟩ first.1 first.2).first = some first.2 := rfl
      exact fill_first start rest
    have slotIs : ∀ slot, found.slots slot = kept first rest slot := by
      intro slot
      rw [foundIs, fill_kept]
    rw [firstIs]
    dsimp only
    rw [wp_bind, wp_get]
    split
    · exact refused _ m' volumes disks
    split
    · exact refused _ m' volumes disks
    next complete =>
    split
    · exact refused _ m' volumes disks
    split
    · exact refused _ m' volumes disks
    next fresh =>
    cases freeIs : freeVolume m'.volumes with
    | none => exact refused _ m' volumes disks
    | some slot =>
      obtain ⟨bound, vacant⟩ := freeVolume_some freeIs
      refine made first rest slot _ m' ?_ volumes disks
      have usable : ∀ disk, m'.usable disk = m.usable disk := fun disk => by
        rw [usable, disks, usable]
      refine ⟨readable, bound, (volume_congr volumes slot).symm.trans vacant, ?_, rfl, rfl, rfl, ?_, ?_, ?_,
        ?_, ?_, ?_, ?_, ?_⟩
      · intro index _ held same
        have small := volume_bound held
        rw [volume, if_pos small, ← volumes] at held
        apply fresh
        rw [any_eq_true]
        exact ⟨index, mem_range.mpr small, by rw [held]; simpa using same⟩
      · intro index
        rw [← slotIs]
      · intro index
        rw [← foundIs]
      · rw [← foundIs]
      · intro level index small
        have all : found.present first.2.count = first.2.count := by
          by_contra missing
          exact complete ⟨level, missing⟩
        have every := filter_eq_self.mp (filter_sublist.eq_of_length
          (all.trans (length_range (n := first.2.count)).symm))
        have working := every index (mem_range.mpr small)
        simpa [small] using working
      · intro index entry small held
        have mem : entry ∈ found.entries first.2.count := by
          exact mem_filterMap.mpr ⟨index, mem_range.mpr small, (slotIs index).trans held⟩
        have le := foldl_min_le (2 ^ 64 - 1)
          (mem_map_of_mem (f := fun entry : D × Header => m'.usable entry.1) mem)
        rw [usable] at le
        constructor
        · intro level
          rw [level]
          exact le
        intro level
        rw [level]
        exact (Nat.div_mul_le_self _ _).trans le
      · intro level positive
        rw [level]
        apply foldl_min_pos (by decide)
        intro x mapped
        obtain ⟨entry, mem, rfl⟩ := mem_map.mp mapped
        obtain ⟨index, -, held⟩ := mem_filterMap.mp mem
        rw [usable]
        exact positive index entry ((slotIs index).symm.trans held)
      · intro level
        rw [level]
        exact ⟨Nat.zero_lt_one.trans_le (Nat.le_max_right _ _), Nat.dvd_mul_left _ _, rfl⟩
      · intro level
        rw [level, ← funext slotIs, ← funext usable]
        rfl

def replaced (volume : Volume D) (slot : Nat) (member : D) : Volume D :=
  { volume with
    members := update volume.members slot (some member)
    failed := update volume.failed slot false }

section
variable {slot' : Nat} (member) (apart : slot' ≠ slot)
include apart

theorem replaced_failed : (replaced volume slot member).failed slot' = volume.failed slot' := update_of_ne apart _ _

theorem replaced_members : (replaced volume slot member).members slot' = volume.members slot' := update_of_ne apart _ _

end

theorem replace_wp [DecidableEq D] {index : Nat} {ok : Unit → Machine D → Prop} (refused : ∀ fault, err fault m)
    (copied : ∀ volume candidate source, m.volume index = some volume → volume.level = .mirror →
      slot < volume.count → volume.sectors ≤ m.usable member → candidate ≠ slot →
      volume.Serves candidate source → wp (copyOver io source member volume.sectors volume.sectors 0)
        (fun success m' => (success = true → wp (bump io index (replaced volume slot member)) ok err m') ∧
          (success = false → err (.refused .disk) m')) err m) :
    wp (replace io inUse index slot member) ok err m := by
  unfold Raid.replace
  rw [wp_bind, wp_get]
  cases found : m.volume index with
  | none => exact refused _
  | some volume =>
    dsimp only
    split
    · exact refused _
    next shape =>
    split
    · exact refused _
    next large =>
    split
    · exact refused _
    obtain ⟨level, small⟩ := not_or.mp shape
    cases chosen : (range volume.count).find? fun candidate =>
        candidate ≠ slot && !volume.failed candidate with
    | none => exact refused _
    | some candidate =>
      have bound := mem_range.mp (mem_of_find?_eq_some chosen)
      have fit := find?_some chosen
      simp only [ne_eq, decide_not, Bool.and_eq_true, Bool.not_eq_true', decide_eq_false_iff_not] at fit
      simp only [Option.bind_some]
      cases source : volume.members candidate with
      | none => exact refused _
      | some disk =>
        rw [wp_bind]
        refine wp_mono (copied volume candidate disk found (not_not.mp level) (not_le.mp small)
          (not_lt.mp large) fit.1 ⟨bound, fit.2, source⟩) ?_ (fun _ _ h => h)
        rintro success m' ⟨good, bad⟩
        cases success with
        | true => exact good rfl
        | false => exact bad rfl

end AerOS.Proof.Raid
