import AerOS.Proof.Raid.Tracks
import Mathlib.Data.List.Nodup
import Mathlib.Data.List.Perm.Subperm

namespace AerOS.Proof.Raid
open AerOS.Raid Lib Lib.Action Function
variable {D : Type} {io : Answers D} {m m' : Machine D} {t : Tracks D} {index : Nat}
  {volume : Volume D} {k k' : Track D}
variable {member : D} {other slot : Nat}

theorem other_of_healthy (h : 1 < healthy volume) (slot : Nat) :
    ∃ other < volume.count, other ≠ slot ∧ volume.failed other = false := by
  by_contra none
  push Not at none
  have only : (List.range volume.count).filter (fun slot => !volume.failed slot) ⊆ [slot] := by
    intro other mem
    rw [List.mem_filter, List.mem_range] at mem
    by_contra ne
    have := none other mem.1 (by simpa using ne)
    rw [Bool.not_eq_true'] at mem
    exact this mem.2
  have short := (List.Nodup.subperm (List.nodup_range.filter _) only).length_le
  exact absurd h (not_lt.mpr short)

theorem alone_of_healthy (h : healthy volume ≤ 1) {slot' : Nat} (bound : slot < volume.count)
    (bound' : slot' < volume.count) (works : volume.failed slot = false)
    (works' : volume.failed slot' = false) : slot = slot' := by
  by_contra ne
  have both : [slot, slot'] ⊆ (List.range volume.count).filter fun slot => !volume.failed slot := by
    intro _ mem
    rw [List.mem_filter, List.mem_range]
    rcases List.mem_pair.mp mem with rfl | rfl
    · exact ⟨bound, by rw [works]; rfl⟩
    · exact ⟨bound', by rw [works']; rfl⟩
  have pair : [slot, slot'].Nodup := by simpa using ne
  have long := (pair.subperm both).length_le
  exact absurd h (not_le.mpr long)

structure Track.Next (k k' : Track D) : Prop where
  level : k'.level = k.level
  count : k'.count = k.count
  events : k'.events = k.events + 1
  failed : ∀ events ≤ k.events, k'.failed events = k.failed events

theorem Track.Next.fits (next : k.Next k') {header : Header}
    (fits : Fits m member header k) : Fits m member header k' := by
  have old : k'.failed header.events = k.failed header.events := next.failed _ fits.events
  refine ⟨fits.level.trans next.level.symm, fits.count.trans next.count.symm, ?_, ?_, ?_, ?_, fits.usable, ?_⟩
  · rw [next.events]
    exact Nat.le_succ_of_le fits.events
  · rw [next.count]
    exact fits.bound
  · rw [next.count, old]
    exact fits.failed
  · rw [old]
    exact fits.working
  intro now
  have := fits.events
  rw [now, next.events] at this
  exact absurd this (Nat.not_succ_le_self _)

theorem Track.Next.superseded (next : k.Next k') (inv : Inv m t)
    (found : m.volume index = some volume) (track : t volume.uuid = some k) {volume' : Volume D}
    (serves : volume.Serves slot member)
    (stays : volume'.Serves slot member) (events : Nat) (less : events < k'.events) :
    ∃ slot < k'.count, k'.failed events slot = false ∧
      ∀ member header, (∀ slot, ¬ volume'.Serves slot member) → m.header member = some header →
        header.uuid = volume.uuid → header.events = events → header.slot ≠ slot := by
  rw [next.events, Nat.lt_succ_iff] at less
  rw [next.count, next.failed events less]
  have follows := inv.follows_of found track
  rcases Nat.lt_or_eq_of_le less with before | rfl
  · obtain ⟨slot, bound, working, gone⟩ := inv.superseded volume.uuid k track events before
    exact ⟨slot, bound, working, fun member header _ => gone member header⟩
  refine ⟨slot, follows.count ▸ serves.bound, ?_, ?_⟩
  · rw [← follows.failed slot (follows.count ▸ serves.bound), serves.working]
  intro other header idle read uuid now place
  have holds := (inv.fits other header k read (uuid ▸ track)).current now
  obtain ⟨-, -, -, -, -, holds', -⟩ := inv.serving found track serves
  have same : other = member := by
    have placed := holds.place
    rw [place, holds'.place] at placed
    exact (Option.some.inj placed).symm
  exact idle slot (same ▸ stays)

structure SameData (m m' : Machine D) : Prop where
  sectors : ∀ member, (m'.disks member).sectors = (m.disks member).sectors
  data : ∀ member, ∀ lba < m.usable member,
    (m'.disks member).data lba = (m.disks member).data lba

theorem put_put_volume (bound : index < maxVolumes) (a b : Option (Volume D)) (j : Nat) :
    ((m.put index a).put index b).volume j = if j = index then b else m.volume j := by
  rw [volume_put _ bound]
  split
  · rfl
  · next ne => rw [volume_put _ bound, if_neg ne]

theorem bump_install [DecidableEq D] (inv : Inv m t) (events : volume.events + 1 < 2 ^ 64) (lands : Lands io m)
    (install : Install m
      ((m'.put index (some volume)).put index (some { volume with events := volume.events + 1 }))
      t index { volume with events := volume.events + 1 } k) :
    wp (bump io index volume) (fun _ m'' => Inv m'' (update t volume.uuid (some k)) ∧ (∀ j, m''.volume j =
          if j = index then some { volume with events := volume.events + 1 } else m.volume j) ∧
        SameData m' m'')
      (fun _ _ => False) m' := by
  unfold bump
  simp only [wp_bind, setVolume, wp_modify]
  rw [if_pos events]
  have found := install.place index
  rw [if_pos rfl] at found
  refine wp_of_ok (persist_wp found install.encodable (lands.of_sectors install.sectors)) ?_
  intro _ m'' persisted
  have kept := Install.inv inv install persisted
  refine ⟨kept, fun j => ?_, persisted.sectors, persisted.data⟩
  rw [← install.place, volume_congr persisted.volumes]

def failing (volume : Volume D) (slot : Nat) : Volume D :=
  { volume with failed := update volume.failed slot true, events := volume.events + 1 }

theorem working_update {failed : Nat → Bool} {slot' : Nat} :
    update failed slot true slot' = false ↔ slot' ≠ slot ∧ failed slot' = false := by
  by_cases at_ : slot' = slot <;> simp [at_]

theorem serves_of_failing {slot' : Nat} (serves : (failing volume slot).Serves slot' member) :
    slot' ≠ slot ∧ volume.Serves slot' member := by
  obtain ⟨apart, working⟩ := working_update.mp serves.working
  exact ⟨apart, serves.bound, working, serves.member⟩

def Track.fail (k : Track D) (failed : Nat → Bool) : Track D :=
  { k with events := k.events + 1, failed := update k.failed (k.events + 1) failed }

theorem Track.fail_next (k : Track D) (failed : Nat → Bool) : k.Next (k.fail failed) := by
  refine ⟨rfl, rfl, rfl, fun _ _ => update_of_ne (by omega) _ _⟩

section
variable (inv : Inv m t) (found : m.volume index = some volume) (track : t volume.uuid = some k)
  (events : volume.events + 1 < 2 ^ 64)
include inv found track events

theorem failing_install
    (otherBound : other < volume.count) (ne : other ≠ slot) (works : volume.failed other = false) :
    Install m ((m.put index (some { volume with failed := update volume.failed slot true })).put index
        (some (failing volume slot))) t index (failing volume slot)
      (k.fail (update volume.failed slot true)) := by
  have follows := inv.follows_of found track
  obtain ⟨disk, held⟩ := follows.filled other otherBound works
  refine ⟨put_put_volume (volume_bound found) _ _, fun _ => rfl, fun _ => rfl, fun _ _ => rfl, ?_, ?_,
    ?_, events, ?_, ?_, ?_, ?_⟩
  · intro j w apart atJ same
    exact apart (inv.apart j index w volume atJ found same)
  · have kept := roster_self m
    have once : Roster _ (m.put index
        (some { volume with failed := update volume.failed slot true })) := kept.put found rfl
    have place := volume_put m (volume_bound found)
      (some { volume with failed := update volume.failed slot true }) index
    rw [if_pos rfl] at place
    exact kept.exclusive (once.put place rfl) inv.exclusive
  · refine { follows with events := ?_, failed := ?_, filled := ?_ }
    · exact congrArg (· + 1) follows.events
    · intro slot' _
      exact (congrFun (update_self (k.events + 1) _ k.failed) slot').symm
    · intro slot' bound working
      exact follows.filled slot' bound (working_update.mp working).2
  · intro slot' member fills _
    obtain ⟨header, read, uuid, -⟩ := inv.carried index volume slot' member found fills
    exact ⟨header, read, uuid⟩
  · intro member header _ read uuid
    exact (k.fail_next _).fits (inv.fits member header k read (uuid ▸ track))
  · intro slot' member serves
    obtain ⟨-, -, -, -, -, holds, usable⟩ := inv.serving found track (serves_of_failing serves).2
    exact ⟨⟨holds.place, holds.synced, holds.image⟩, usable⟩
  · have serves : volume.Serves other disk := ⟨otherBound, works, held⟩
    have stays : (failing volume slot).Serves other disk :=
      ⟨otherBound, (update_of_ne ne _ _).trans works, held⟩
    exact (k.fail_next _).superseded inv found track serves stays

theorem bump_failing [DecidableEq D] (lands : Lands io m) (otherBound : other < volume.count) (ne : other ≠ slot)
    (works : volume.failed other = false) :
    wp (bump io index { volume with failed := update volume.failed slot true })
      (fun _ m' => Inv m' (update t volume.uuid (some (k.fail (update volume.failed slot true)))) ∧
        (∀ j, m'.volume j = if j = index then some (failing volume slot) else m.volume j) ∧
        SameData m m')
      (fun _ _ => False) m :=
  bump_install inv events lands (failing_install inv found track events otherBound ne works)

end

def Track.replace (k : Track D) (volume : Volume D) (slot source : Nat) (member : D) : Track D :=
  { k with
    events := k.events + 1
    failed := update k.failed (k.events + 1) (update volume.failed slot false)
    member := update k.member slot (some member)
    image := update k.image slot (k.image source)
    synced := volume.sectors }

theorem Track.replace_next (k : Track D) (volume : Volume D) (slot source : Nat) (member : D) :
    k.Next (k.replace volume slot source member) :=
  ⟨rfl, rfl, rfl, fun _ _ => update_of_ne (by omega) _ _⟩

structure Copied (m m' : Machine D) (volume : Volume D) (source member : D) : Prop where
  volumes : m'.volumes = m.volumes
  header : ∀ other, m'.header other = m.header other
  sectors : ∀ other, (m'.disks other).sectors = (m.disks other).sectors
  other : ∀ other, other ≠ member → m'.disks other = m.disks other
  data : ∀ lba < volume.sectors, (m'.disks member).data lba = (m.disks source).data lba

theorem replaced_install (inv : Inv m t) (found : m.volume index = some volume)
    (track : t volume.uuid = some k) (events : volume.events + 1 < 2 ^ 64)
    (mirror : volume.level = .mirror) {candidate : Nat} {source : D}
    (bound : slot < volume.count) (large : volume.sectors ≤ m.usable member)
    (free : ∀ j slot', m.Fills j slot' member → j = index ∧ slot' = slot)
    (ne : candidate ≠ slot) (serves : volume.Serves candidate source)
    (copied : Copied m m' volume source member) :
    Install m ((m'.put index (some (replaced volume slot member))).put index
        (some { replaced volume slot member with events := volume.events + 1 })) t index
      { replaced volume slot member with events := volume.events + 1 }
      (k.replace volume slot candidate member) := by
  have follows := inv.follows_of found track
  have small := follows.small mirror
  have place' : m'.volume index = some volume := (volume_congr copied.volumes index).trans found
  have old : ∀ {slot' other}, slot' ≠ slot →
      (replaced volume slot member).Serves slot' other → volume.Serves slot' other := by
    rintro slot' other apart ⟨bound', working, held⟩
    exact ⟨bound', (replaced_failed member apart).symm.trans working, (replaced_members member apart).symm.trans held⟩
  have new : (replaced volume slot member).Serves slot member := ⟨bound, update_self _ _ _, update_self _ _ _⟩
  have fillsOld : ∀ {slot' other}, (replaced volume slot member).members slot' = some other →
      (slot' = slot ∧ other = member) ∨ volume.members slot' = some other := by
    intro slot' other held
    by_cases apart : slot' = slot
    · subst apart
      have here : (replaced volume slot' member).members slot' = some member := update_self _ _ _
      exact .inl ⟨rfl, Option.mem_unique held here⟩
    · exact .inr ((replaced_members member apart).symm.trans held)
  refine ⟨?_, copied.header, copied.sectors, ?_, ?_, ?_, ?_, events, ?_, ?_, ?_, ?_⟩
  · intro j
    rw [put_put_volume (volume_bound found), volume_congr copied.volumes]
  · intro other idle
    apply copied.other other
    rintro rfl
    exact idle slot ⟨new.bound, new.working, new.member⟩
  · intro j w apart atJ same
    exact apart (inv.apart j index w volume atJ found same)
  · have before := exclusive_congr m m' copied.volumes inv.exclusive
    have once := replaced_exclusive before place' fun j slot' fills =>
      free j slot' ((fills_congr copied.volumes j slot' member).mp fills)
    have place := volume_put m' (volume_bound found) (some (replaced volume slot member)) index
    rw [if_pos rfl] at place
    have kept := roster_self (m'.put index (some (replaced volume slot member)))
    exact kept.exclusive (kept.put place rfl) once
  · refine ⟨follows.level, follows.count, congrArg (· + 1) follows.events, ?_, follows.few, ?_, ?_,
      fun _ => le_rfl, follows.positive, ?_, ?_⟩
    · intro slot' _
      exact (congrFun (update_self (k.events + 1) _ k.failed) slot').symm
    · intro slot' other held
      rcases fillsOld held with ⟨rfl, -⟩ | held
      · exact bound
      · exact follows.bound slot' other held
    · intro slot' bound' working
      by_cases apart : slot' = slot
      · subst apart
        exact ⟨member, new.member⟩
      obtain ⟨other, held⟩ := follows.filled slot' bound' ((replaced_failed member apart).symm.trans working)
      exact ⟨other, (replaced_members member apart).trans held⟩
    · intro _ slot' other held
      rcases fillsOld held with ⟨-, rfl⟩ | held
      · exact large
      · exact follows.within mirror slot' other held
    · intro stripe
      exact absurd (mirror.symm.trans stripe) (by decide)
  · intro slot' other held failed
    by_cases apart : slot' = slot
    · subst apart
      have working : (replaced volume slot' member).failed slot' = false := new.working
      exact absurd (working.symm.trans failed) (by decide)
    have same := (replaced_members member apart).symm.trans held
    obtain ⟨header, read, uuid, -⟩ := inv.carried index volume slot' other found same
    exact ⟨header, read, uuid⟩
  · intro other header _ read uuid
    exact (k.replace_next volume slot candidate member).fits (inv.fits other header k read (uuid ▸ track))
  · intro slot' other serves'
    have serves' : (replaced volume slot member).Serves slot' other :=
      ⟨serves'.bound, serves'.working, serves'.member⟩
    by_cases apart : slot' = slot
    · subst apart
      obtain rfl := Option.mem_unique serves'.member new.member
      obtain ⟨-, -, -, -, -, holds, -⟩ := inv.serving found track serves
      have positive := follows.positive mirror
      refine ⟨⟨update_self _ _ _, fun _ => ?_, fun level lba below => ?_⟩, by omega⟩
      · exact large.trans (Nat.le_of_eq (by rw [Machine.usable, ← copied.sectors]; rfl))
      have copy : (m'.disks other).data lba = k.image candidate lba := by
        rw [copied.data lba below]
        exact holds.image level lba (below.trans_le small)
      have here : (k.replace volume slot' candidate other).image slot' = k.image candidate :=
        update_self _ _ _
      rw [here]
      exact copy
    obtain ⟨-, -, -, -, -, holds, usable⟩ := inv.serving found track (old apart serves')
    have notNew : other ≠ member := by
      rintro rfl
      have few := serves'.bound.trans_le follows.few
      exact apart (free index slot' ⟨volume, found, few, (old apart serves').member⟩).2
    have sameDisk := copied.other other notNew
    refine ⟨⟨(update_of_ne apart _ _).trans holds.place, fun level => ?_, fun level lba below => ?_⟩,
      usable⟩
    · refine small.trans ((holds.synced level).trans (Nat.le_of_eq ?_))
      rw [Machine.usable, ← sameDisk]
      rfl
    have image := holds.image level lba (below.trans_le small)
    rw [← sameDisk] at image
    have kept : (k.replace volume slot candidate member).image slot' = k.image slot' :=
      update_of_ne apart _ _
    rw [kept]
    exact image
  · have stays : Volume.Serves { replaced volume slot member with events := volume.events + 1 }
        candidate source :=
      ⟨serves.bound, (update_of_ne ne _ _).trans serves.working, (update_of_ne ne _ _).trans serves.member⟩
    exact (k.replace_next volume slot candidate member).superseded inv found track serves stays

def createdTrack (m : Machine D) (level : Level) (members : List D) : Track D where
  level := level
  count := members.length
  events := 1
  failed := fun _ _ => false
  member := fun slot => members[slot]?
  image := fun slot lba => ((members[slot]?).map fun member => (m.disks member).data lba).getD Buffer.zero
  synced := (members.map m.usable).foldl min (2 ^ 64 - 1)

theorem created_install (inv : Inv m t) {uuid : Uuid} {level : Level} {members : List D}
    (created : Created m uuid level members slot volume) (unknown : t uuid = none)
    (fresh : ∀ member header, m.header member = some header → header.uuid ≠ uuid) :
    Install m (m.put slot (some volume)) t slot volume (createdTrack m level members) := by
  have usable_pos : ∀ {member : D}, member ∈ members → 0 < m.usable member := fun mem =>
    Nat.pos_of_ne_zero (created.usable _ mem)
  have mem_of : ∀ {index member}, volume.members index = some member → member ∈ members := by
    intro index member held
    rw [created.members_eq] at held
    exact List.mem_of_getElem? held
  have smallest : ∀ {member : D}, member ∈ members →
      (members.map m.usable).foldl min (2 ^ 64 - 1) ≤ m.usable member := fun mem =>
    foldl_min_le _ (List.mem_map_of_mem mem)
  refine ⟨fun j => volume_put m created.bound _ j, fun _ => rfl, fun _ => rfl, fun _ _ => rfl, ?_,
    created.exclusive inv.exclusive, ?_, ?_, ?_, ?_, ?_, ?_⟩
  · intro j other _ found same
    obtain ⟨k, track, -⟩ := inv.follows j other found
    rw [same, created.uuid_eq, unknown] at track
    cases track
  · refine ⟨created.level_eq, created.count_eq, created.events_eq, ?_, ?_, ?_, ?_, ?_, ?_, ?_, ?_⟩
    · intro slot' _
      exact created.failed_eq slot'
    · exact created.count_eq ▸ created.count_le
    · intro slot' member held
      rw [created.members_eq] at held
      rw [created.count_eq]
      exact (List.getElem?_eq_some_iff.mp held).1
    · intro slot' bound _
      rw [created.count_eq] at bound
      exact ⟨members[slot'], by rw [created.members_eq, List.getElem?_eq_getElem bound]⟩
    · intro mirror
      exact (created.mirror_size (created.level_eq ▸ mirror)).le
    · intro mirror
      rw [created.mirror_size (created.level_eq ▸ mirror)]
      apply foldl_min_pos (by decide)
      intro x mapped
      obtain ⟨member, mem, rfl⟩ := List.mem_map.mp mapped
      exact usable_pos mem
    · intro mirror slot' member held
      rw [created.mirror_size (created.level_eq ▸ mirror)]
      exact smallest (mem_of held)
    · intro stripe
      obtain ⟨chunk, divides, sectors, small⟩ := created.stripe_size (created.level_eq ▸ stripe)
      exact ⟨chunk, divides, created.count_eq.symm ▸ sectors, fun slot' member held =>
        small.trans (smallest (mem_of held))⟩
  · rw [created.events_eq]
    decide
  · intro slot' member _ failed
    rw [created.failed_eq] at failed
    cases failed
  · intro member header _ read same
    exact absurd (same.trans created.uuid_eq) (fresh member header read)
  · intro slot' member serves
    have held := serves.member
    rw [created.members_eq] at held
    have mem := List.mem_of_getElem? held
    refine ⟨⟨held, fun _ => smallest mem, fun _ lba _ => ?_⟩, usable_pos mem⟩
    change (m.disks member).data lba =
      ((members[slot']?).map fun member => (m.disks member).data lba).getD Buffer.zero
    rw [held]
    rfl
  · intro _ _
    refine ⟨0, created.count_pos, rfl, fun member header _ read same => ?_⟩
    exact absurd (same.trans created.uuid_eq) (fresh member header read)

end AerOS.Proof.Raid
