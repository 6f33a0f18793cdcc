import AerOS.Proof.Raid.Places
import AerOS.Proof.Raid.Persist

namespace AerOS.Proof.Raid
open AerOS.Raid Function List Option Machine
variable {D : Type}
variable {member : D} {slot : Nat}

structure Track (D : Type) where
  level : Level
  count : Nat
  events : Nat
  failed : Nat → Nat → Bool
  member : Nat → Option D
  image : Nat → Nat → Sector
  synced : Nat

abbrev Tracks (D : Type) := Uuid → Option (Track D)

structure Holds (m : Machine D) (k : Track D) (slot : Nat) (member : D) : Prop where
  place : k.member slot = some member
  synced : k.level = .mirror → k.synced ≤ m.usable member
  image : k.level = .mirror → ∀ lba < k.synced, (m.disks member).data lba = k.image slot lba

structure Fits (m : Machine D) (member : D) (header : Header) (k : Track D) : Prop where
  level : header.level = k.level
  count : header.count = k.count
  events : header.events ≤ k.events
  bound : header.slot < k.count
  failed : ∀ slot < k.count, header.failed.testBit slot = k.failed header.events slot
  working : k.failed header.events header.slot = false
  usable : 0 < m.usable member
  current : header.events = k.events → Holds m k header.slot member

structure Follows (m : Machine D) (volume : Volume D) (k : Track D) : Prop where
  level : volume.level = k.level
  count : volume.count = k.count
  events : volume.events = k.events
  failed : ∀ slot < k.count, volume.failed slot = k.failed k.events slot
  few : volume.count ≤ maxMembers
  bound : ∀ slot member, volume.members slot = some member → slot < volume.count
  filled : ∀ slot < volume.count, volume.failed slot = false → ∃ member, volume.members slot = some member
  small : volume.level = .mirror → volume.sectors ≤ k.synced
  positive : volume.level = .mirror → 0 < volume.sectors
  within : volume.level = .mirror → ∀ slot member, volume.members slot = some member →
    volume.sectors ≤ m.usable member
  stripe : volume.level = .stripe → 0 < volume.chunk ∧ volume.chunk ∣ volume.perMember ∧
    volume.sectors = volume.perMember * volume.count ∧
    ∀ slot member, volume.members slot = some member → volume.perMember ≤ m.usable member

structure Inv (m : Machine D) (t : Tracks D) : Prop where
  follows : ∀ index volume, m.volume index = some volume → ∃ k, t volume.uuid = some k ∧ Follows m volume k
  apart : ∀ index index' volume volume', m.volume index = some volume →
    m.volume index' = some volume' → volume.uuid = volume'.uuid → index = index'
  exclusive : Exclusive m
  carried : ∀ index volume slot member, m.volume index = some volume → volume.members slot = some member →
    ∃ header, m.header member = some header ∧ header.uuid = volume.uuid ∧
      (volume.failed slot = false → header.events = volume.events ∧ header.slot = slot)
  fits : ∀ member header k, m.header member = some header → t header.uuid = some k → Fits m member header k
  superseded : ∀ uuid k, t uuid = some k → ∀ events < k.events,
    ∃ slot < k.count, k.failed events slot = false ∧
      ∀ member header, m.header member = some header → header.uuid = uuid →
        header.events = events → header.slot ≠ slot

section
variable {m m' : Machine D} {t : Tracks D} {index : Nat} {volume : Volume D} {k : Track D}

theorem Holds.congr (sectors : (m'.disks member).sectors = (m.disks member).sectors)
    (data : ∀ lba < m.usable member, (m'.disks member).data lba = (m.disks member).data lba)
    (h : Holds m k slot member) : Holds m' k slot member := by
  refine ⟨h.place, fun mirror => ?_, fun mirror lba below => ?_⟩
  · rw [usable, sectors]
    exact h.synced mirror
  rw [data lba (below.trans_le (h.synced mirror))]
  exact h.image mirror lba below

theorem Follows.congr (sectors : ∀ member, (m'.disks member).sectors = (m.disks member).sectors)
    (h : Follows m volume k) : Follows m' volume k := by
  have usable : ∀ member, m'.usable member = m.usable member := fun member => by
    rw [usable, sectors, usable]
  refine { h with within := ?_, stripe := ?_ }
  · simpa only [usable] using h.within
  · simpa only [usable] using h.stripe

theorem Fits.congr {header : Header} (sectors : (m'.disks member).sectors = (m.disks member).sectors)
    (data : ∀ lba < m.usable member, (m'.disks member).data lba = (m.disks member).data lba)
    (h : Fits m member header k) : Fits m' member header k := by
  refine { h with usable := ?_, current := fun now => (h.current now).congr sectors data }
  rw [Machine.usable, sectors]
  exact h.usable

theorem Inv.serving (inv : Inv m t) (found : m.volume index = some volume)
    (track : t volume.uuid = some k) (serves : volume.Serves slot member) :
    ∃ header, m.header member = some header ∧ header.uuid = volume.uuid ∧ header.slot = slot ∧
      header.events = k.events ∧ Holds m k slot member ∧ 0 < m.usable member := by
  obtain ⟨k', track', follows⟩ := inv.follows index volume found
  obtain rfl := mem_unique track track'
  obtain ⟨header, read, uuid, current⟩ := inv.carried index volume slot member found serves.member
  obtain ⟨events, place⟩ := current serves.working
  have fits := inv.fits member header k read (uuid ▸ track)
  have now := events.trans follows.events
  exact ⟨header, read, uuid, place, now, place ▸ fits.current now, fits.usable⟩

theorem Inv.follows_of (inv : Inv m t) (found : m.volume index = some volume)
    (track : t volume.uuid = some k) : Follows m volume k := by
  obtain ⟨k', track', follows⟩ := inv.follows index volume found
  obtain rfl := mem_unique track track'
  exact follows

theorem inv_congr (volumes : m'.volumes = m.volumes) (disks : m'.disks = m.disks) (inv : Inv m t) :
    Inv m' t := by
  have volume := volume_congr volumes
  have header : ∀ member, m'.header member = m.header member := fun member => by
    rw [header, disks, header]
  refine ⟨?_, ?_, exclusive_congr m m' volumes inv.exclusive, ?_, ?_, ?_⟩
  · intro index v found
    rw [volume] at found
    obtain ⟨k, track, follows⟩ := inv.follows index v found
    exact ⟨k, track, follows.congr fun _ => by rw [disks]⟩
  · simpa only [volume] using inv.apart
  · simpa only [volume, header] using inv.carried
  · intro member h k read track
    rw [header] at read
    exact (inv.fits member h k read track).congr (by rw [disks]) fun _ _ => by rw [disks]
  · simpa only [header] using inv.superseded

end

structure Install (m m' : Machine D) (t : Tracks D) (index : Nat) (volume : Volume D) (k : Track D) :
    Prop where
  place : ∀ j, m'.volume j = if j = index then some volume else m.volume j
  header : ∀ member, m'.header member = m.header member
  sectors : ∀ member, (m'.disks member).sectors = (m.disks member).sectors
  data : ∀ member, (∀ slot, ¬ volume.Serves slot member) → m'.disks member = m.disks member
  alone : ∀ j other, j ≠ index → m.volume j = some other → other.uuid ≠ volume.uuid
  exclusive : Exclusive m'
  follows : Follows m volume k
  events : volume.events < 2 ^ 64
  left : ∀ slot member, volume.members slot = some member → volume.failed slot = true →
    ∃ header, m.header member = some header ∧ header.uuid = volume.uuid
  older : ∀ member header, (∀ slot, ¬ volume.Serves slot member) →
    m.header member = some header → header.uuid = volume.uuid → Fits m member header k
  served : ∀ slot member, volume.Serves slot member → Holds m' k slot member ∧ 0 < m.usable member
  superseded : ∀ events < k.events, ∃ slot < k.count, k.failed events slot = false ∧
    ∀ member header, (∀ slot, ¬ volume.Serves slot member) → m.header member = some header →
      header.uuid = volume.uuid → header.events = events → header.slot ≠ slot

theorem Install.encodable {m m' : Machine D} {t : Tracks D} {index : Nat} {volume : Volume D}
    {k : Track D} (install : Install m m' t index volume k) : Encodable volume := by
  refine ⟨install.follows.few, install.events, fun member slot slot' serves serves' => ?_⟩
  have found : m'.volume index = some volume := by rw [install.place, if_pos rfl]
  have few := install.follows.few
  exact (install.exclusive member index slot index slot'
    ⟨volume, found, serves.bound.trans_le few, serves.member⟩
    ⟨volume, found, serves'.bound.trans_le few, serves'.member⟩).2

theorem headerOf_fits {m : Machine D} {volume : Volume D} {k : Track D}
    (follows : Follows m volume k) (serves : volume.Serves slot member)
    (holds : Holds m k slot member) (usable : 0 < m.usable member) :
    Fits m member (headerOf volume slot) k := by
  refine ⟨follows.level, follows.count, follows.events.le, ?_, ?_, ?_, usable, fun _ => holds⟩
  · exact follows.count ▸ serves.bound
  · intro slot' bound
    change (failedBits volume.failed volume.count).testBit slot' = k.failed volume.events slot'
    rw [foldl_bits_testBit, follows.count, decide_eq_true bound, Bool.true_and, follows.events,
      follows.failed slot' bound]
  · change k.failed volume.events slot = false
    rw [follows.events, ← follows.failed slot (follows.count ▸ serves.bound), serves.working]

theorem Install.inv {m m₁ m' : Machine D} {t : Tracks D} {index : Nat} {volume : Volume D}
    {k : Track D} (inv : Inv m t) (install : Install m m₁ t index volume k)
    (persisted : Persisted m₁ m' volume (range volume.count)) : Inv m' (update t volume.uuid (some k)) := by
  have volumeIs : ∀ j, m'.volume j = if j = index then some volume else m.volume j := by
    intro j
    rw [← install.place, volume_congr persisted.volumes]
  have sectors : ∀ member, (m'.disks member).sectors = (m.disks member).sectors := fun member =>
    (persisted.sectors member).trans (install.sectors member)
  have usable₁ : ∀ member, m₁.usable member = m.usable member := fun member => by
    rw [Machine.usable, install.sectors, Machine.usable]
  have fresh : ∀ slot member, volume.Serves slot member → m'.header member = some (headerOf volume slot) := by
    intro slot member serves
    apply persisted.fresh slot (mem_range.mpr serves.bound) member serves
    have positive := (install.served slot member serves).2
    rw [Machine.usable] at positive
    rw [install.sectors]
    omega
  have idle : ∀ member, (∀ slot, ¬ volume.Serves slot member) → m'.header member = m.header member := by
    intro member free
    rw [persisted.other member fun slot _ => free slot, install.header]
  have idleData : ∀ member, (∀ slot, ¬ volume.Serves slot member) →
      ∀ lba < m.usable member, (m'.disks member).data lba = (m.disks member).data lba := by
    intro member free lba below
    rw [persisted.data member lba (usable₁ member ▸ below), install.data member free]
  have cases_served : ∀ member, (∃ slot, volume.Serves slot member) ∨
      ∀ slot, ¬ volume.Serves slot member := fun member =>
    (Classical.em (∃ slot, volume.Serves slot member)).imp_right fun h slot serves => h ⟨slot, serves⟩
  have place : m₁.volume index = some volume := by rw [install.place, if_pos rfl]
  have alone : ∀ {j slot slot' member}, m₁.Fills j slot member → volume.Serves slot' member → j = index ∧ slot = slot' :=
    fun fills serves => install.exclusive _ _ _ _ _ fills
      ⟨volume, place, serves.bound.trans_le install.follows.few, serves.member⟩
  refine ⟨?_, ?_, ?_, ?_, ?_, ?_⟩
  · intro j other found
    rw [volumeIs] at found
    split at found
    · obtain rfl := some.inj found
      exact ⟨k, update_self _ _ _, install.follows.congr sectors⟩
    next ne =>
    obtain ⟨k', track, follows⟩ := inv.follows j other found
    exact ⟨k', by rw [update_of_ne (install.alone j other ne found), track], follows.congr sectors⟩
  · intro i j v w atI atJ same
    rw [volumeIs] at atI atJ
    split at atI <;> split at atJ
    · next hi hj => exact hi.trans hj.symm
    · next hi hj =>
      obtain rfl := some.inj atI
      exact absurd same.symm (install.alone j w hj atJ)
    · next hi hj =>
      obtain rfl := some.inj atJ
      exact absurd same (install.alone i v hi atI)
    · exact inv.apart i j v w atI atJ same
  · exact exclusive_congr m₁ m' persisted.volumes install.exclusive
  · intro j other slot member found fills
    rw [volumeIs] at found
    split at found
    · obtain rfl := some.inj found
      have bound := install.follows.bound slot member fills
      cases failed : volume.failed slot with
      | false => exact ⟨_, fresh slot member ⟨bound, failed, fills⟩, rfl, fun _ => ⟨rfl, rfl⟩⟩
      | true =>
        obtain ⟨header, read, uuid⟩ := install.left slot member fills failed
        have free : ∀ slot', ¬ volume.Serves slot' member := by
          intro slot' serves
          have same := (alone ⟨volume, place, bound.trans_le install.follows.few, fills⟩ serves).2
          rw [same, serves.working] at failed
          cases failed
        exact ⟨header, (idle member free).trans read, uuid, by simp⟩
    · next ne =>
      obtain ⟨header, read, rest⟩ := inv.carried j other slot member found fills
      have free : ∀ slot', ¬ volume.Serves slot' member := by
        intro slot' serves
        have place' : m₁.volume j = some other := by rw [install.place, if_neg ne, found]
        obtain ⟨k', -, follows⟩ := inv.follows j other found
        have few := (follows.bound slot member fills).trans_le follows.few
        exact ne (alone ⟨other, place', few, fills⟩ serves).1
      exact ⟨header, (idle member free).trans read, rest⟩
  · intro member header k' read track
    rcases cases_served member with ⟨slot, serves⟩ | free
    · rw [fresh slot member serves] at read
      obtain rfl := some.inj read
      obtain rfl : k = k' := some.inj ((update_self volume.uuid (some k) t).symm.trans track)
      obtain ⟨holds, positive⟩ := install.served slot member serves
      refine headerOf_fits (install.follows.congr sectors) serves ?_ ?_
      · refine holds.congr (persisted.sectors member) fun lba below => persisted.data member lba below
      rw [Machine.usable, sectors]
      exact positive
    rw [idle member free] at read
    by_cases same : header.uuid = volume.uuid
    · rw [same, update_self] at track
      obtain rfl := some.inj track
      exact (install.older member header free read same).congr (sectors member) (idleData member free)
    · rw [update_of_ne same] at track
      exact (inv.fits member header k' read track).congr (sectors member) (idleData member free)
  · intro uuid k' track events less
    by_cases same : uuid = volume.uuid
    · subst same
      rw [update_self] at track
      obtain rfl := some.inj track
      obtain ⟨slot, bound, working, gone⟩ := install.superseded events less
      refine ⟨slot, bound, working, fun member header read uuid old => ?_⟩
      rcases cases_served member with ⟨slot', serves⟩ | free
      · rw [fresh slot' member serves] at read
        obtain rfl := some.inj read
        rw [← old] at less
        exact absurd install.follows.events less.ne
      · exact gone member header free ((idle member free).symm.trans read) uuid old
    · rw [update_of_ne same] at track
      obtain ⟨slot, bound, working, gone⟩ := inv.superseded uuid k' track events less
      refine ⟨slot, bound, working, fun member header read uuid' old => ?_⟩
      rcases cases_served member with ⟨slot', serves⟩ | free
      · rw [fresh slot' member serves] at read
        obtain rfl := some.inj read
        exact absurd uuid'.symm same
      · exact gone member header ((idle member free).symm.trans read) uuid' old

variable {io : Answers D} {m m' : Machine D} {t : Tracks D}
variable {entry : D × Header} {index : Nat}

theorem foldl_max_spec {α : Type} (f : α → Nat) (xs : List α) (start : Nat) :
    start ≤ xs.foldl (fun best x => max best (f x)) start ∧
    (∀ x ∈ xs, f x ≤ xs.foldl (fun best x => max best (f x)) start) ∧
    (xs.foldl (fun best x => max best (f x)) start = start ∨
      ∃ x ∈ xs, f x = xs.foldl (fun best x => max best (f x)) start) := by
  induction xs generalizing start with
  | nil => exact ⟨le_rfl, nofun, .inl rfl⟩
  | cons x xs ih =>
    obtain ⟨above, all, reached⟩ := ih (max start (f x))
    rw [foldl_cons]
    refine ⟨(Nat.le_max_left _ _).trans above, ?_, ?_⟩
    · intro y mem
      rcases mem_cons.mp mem with rfl | later
      · exact (Nat.le_max_right _ _).trans above
      · exact all y later
    rcases reached with same | ⟨y, mem, eq⟩
    · rw [same]
      rcases Nat.le_total start (f x) with le | le
      · exact .inr ⟨x, mem_cons_self, (Nat.max_eq_right le).symm⟩
      · exact .inl (Nat.max_eq_left le)
    · exact .inr ⟨y, mem_cons_of_mem x mem, eq⟩

theorem header_bounds {member : D} {header : Header} (read : m.header member = some header) :
    header.count ≤ maxMembers ∧ header.slot < header.count := by
  unfold Machine.header at read
  split at read
  · cases read
  unfold decodeHeader at read
  split_ifs at read
  split at read
  · cases read
  dsimp only at read
  split_ifs at read with shape
  obtain rfl := some.inj read
  dsimp only
  omega

theorem kept_first (first : D × Header) (rest : List (D × Header)) :
    ∃ entry, kept first rest first.2.slot = some entry := by
  have matched : ((first :: rest).reverse.find? fun entry =>
      entry.2.uuid = first.2.uuid ∧ entry.2.slot = first.2.slot).isSome := by
    rw [find?_isSome]
    exact ⟨first, by simp, by simp⟩
  exact isSome_iff_exists.mp matched

section
variable {members : List D} {first : D × Header} {rest : List (D × Header)} {slot : Nat}
  {volume : Volume D} {k : Track D} (made : Assembled m io members first rest slot volume)
include made

theorem Assembled.first_header : m.header first.1 = some first.2 :=
  (readable_header (made.readable ▸ mem_cons_self : first ∈ m.readable io m.transfers members)).2

theorem Assembled.kept_bound (held : kept first rest index = some entry) : index < maxMembers := by
  obtain ⟨-, read, -, _⟩ := made.kept_header held
  obtain ⟨_, _⟩ := header_bounds read
  omega

theorem Assembled.mem_entries (held : kept first rest index = some entry) :
    entry ∈ (Found.fill ⟨none, fun _ => none⟩ (first :: rest)).entries maxMembers :=
  mem_filterMap.mpr ⟨index, mem_range.mpr (made.kept_bound held), (fill_kept first rest index).trans held⟩

theorem Assembled.newest_spec :
    (∀ index entry, kept first rest index = some entry → entry.2.events ≤ volume.events) ∧
    ∃ index entry, kept first rest index = some entry ∧ entry.2.events = volume.events := by
  obtain ⟨-, all, reached⟩ := foldl_max_spec (fun entry : D × Header => entry.2.events)
    ((Found.fill ⟨none, fun _ => none⟩ (first :: rest)).entries maxMembers) 0
  have events : volume.events = ((Found.fill ⟨none, fun _ => none⟩ (first :: rest)).entries maxMembers).foldl
        (fun best entry => max best entry.2.events) 0 := made.events_eq
  rw [← events] at all reached
  refine ⟨fun index entry held => all entry (made.mem_entries held), ?_⟩
  rcases reached with _ | ⟨entry, mem, eq⟩
  · obtain ⟨entry, held⟩ := kept_first first rest
    have le := all entry (made.mem_entries held)
    exact ⟨_, entry, held, by omega⟩
  · obtain ⟨index, -, held⟩ := mem_filterMap.mp mem
    exact ⟨index, entry, (fill_kept first rest index).symm.trans held, eq⟩

theorem Assembled.newestFailed_spec :
    ∃ index entry, kept first rest index = some entry ∧ entry.2.events = volume.events ∧
      (Found.fill ⟨none, fun _ => none⟩ (first :: rest)).newestFailed = entry.2.failed := by
  obtain ⟨-, index, entry, held, now⟩ := made.newest_spec
  have some : (((Found.fill ⟨none, fun _ => none⟩ (first :: rest)).entries maxMembers).find?
      fun entry => entry.2.events = (Found.fill ⟨none, fun _ => none⟩ (first :: rest)).newest).isSome := by
    rw [find?_isSome]
    refine ⟨entry, made.mem_entries held, ?_⟩
    rw [← made.events_eq]
    exact decide_eq_true now
  obtain ⟨chosen, found⟩ := isSome_iff_exists.mp some
  obtain ⟨index', -, held'⟩ := mem_filterMap.mp (mem_of_find?_eq_some found)
  have now' := find?_some found
  rw [← made.events_eq] at now'
  refine ⟨index', chosen, (fill_kept first rest index').symm.trans held', by simpa using now', ?_⟩
  unfold Found.newestFailed
  rw [found]

variable (inv : Inv m t) (track : t first.2.uuid = some k)
  (current : ∀ slot entry, kept first rest slot = some entry →
    (∀ slot' other, kept first rest slot' = some other → other.2.events ≤ entry.2.events) →
    ∀ slot' < entry.2.count, entry.2.failed.testBit slot' = false →
      ∃ other, kept first rest slot' = some other ∧ other.2.events = entry.2.events)
include inv track

theorem Assembled.kept_fits (held : kept first rest index = some entry) : Fits m entry.1 entry.2 k := by
  obtain ⟨-, read, uuid, -⟩ := made.kept_header held
  exact inv.fits entry.1 entry.2 k read (uuid ▸ track)

include current

theorem Assembled.all_current (bound : index < k.count) (working : k.failed volume.events index = false) :
    ∃ entry, kept first rest index = some entry ∧ entry.2.events = volume.events := by
  obtain ⟨newest, index₀, entry₀, held₀, now₀⟩ := made.newest_spec
  have fits := made.kept_fits inv track held₀
  have bit : entry₀.2.failed.testBit index = false := by
    rw [fits.failed index bound, now₀, working]
  obtain ⟨other, held, now⟩ := current index₀ entry₀ held₀
    (fun slot' other held => now₀ ▸ newest slot' other held) index (fits.count ▸ bound) bit
  exact ⟨other, held, now.trans now₀⟩

theorem Assembled.events_current : volume.events = k.events := by
  obtain ⟨-, _, _, held₀, now₀⟩ := made.newest_spec
  have le := (made.kept_fits inv track held₀).events
  rw [now₀] at le
  by_contra ne
  obtain ⟨_, bound, working, gone⟩ := inv.superseded first.2.uuid k track volume.events (le.lt_of_ne ne)
  obtain ⟨entry, held, now⟩ := made.all_current inv track current bound working
  obtain ⟨-, read, uuid, place⟩ := made.kept_header held
  exact gone entry.1 entry.2 read uuid now place

theorem Assembled.failed_current (bound : index < k.count) :
    volume.failed index = k.failed k.events index := by
  have events := made.events_current inv track current
  have count : first.2.count = k.count := (inv.fits first.1 first.2 k made.first_header track).count
  rw [made.failed_eq, count, decide_eq_true bound, Bool.true_and]
  unfold Found.failed
  rw [fill_kept, ← made.events_eq]
  obtain ⟨_, _, held₀, now₀, bits⟩ := made.newestFailed_spec
  have bit : (Found.fill ⟨none, fun _ => none⟩ (first :: rest)).newestFailed.testBit index =
      k.failed k.events index := by
    rw [bits, (made.kept_fits inv track held₀).failed index bound, now₀, events]
  cases working : k.failed k.events index with
  | false =>
    obtain ⟨entry, held, now⟩ := made.all_current inv track current bound (events ▸ working)
    rw [held]
    simp [bit, working, now]
  | true =>
    cases held : kept first rest index with
    | none => rfl
    | some entry => simp [bit, working]

section
variable (small : first.2.level = .mirror → ∃ index entry, index < first.2.count ∧
  kept first rest index = some entry ∧ m.usable entry.1 ≤ k.synced)
include small

theorem Assembled.follows : Follows m volume k := by
  have read := made.first_header
  have fits := inv.fits first.1 first.2 k read track
  have count := made.count_eq.trans fits.count
  refine ⟨made.level_eq.trans fits.level, count, made.events_current inv track current,
    fun index bound => made.failed_current inv track current bound, ?_, ?_, ?_, ?_, ?_, ?_, ?_⟩
  · exact made.count_eq ▸ (header_bounds read).1
  · intro index member held
    obtain ⟨-, _, -, -, -, -, bound⟩ := made.member_header held
    exact made.count_eq.symm ▸ bound
  · intro index bound working
    have bound' : index < k.count := count ▸ bound
    rw [made.failed_current inv track current bound'] at working
    obtain ⟨entry, held, -⟩ := made.all_current inv track current bound'
      ((made.events_current inv track current).symm ▸ working)
    refine ⟨entry.1, ?_⟩
    rw [made.members_eq, if_pos (fits.count.symm ▸ bound'), held]
    rfl
  · intro mirror
    obtain ⟨index, entry, bound, held, le⟩ := small (made.level_eq ▸ mirror)
    exact ((made.size_le index entry bound held).1 (made.level_eq ▸ mirror)).trans le
  · intro mirror
    apply made.size_pos (made.level_eq ▸ mirror)
    intro index entry held
    exact (made.kept_fits inv track held).usable
  · intro mirror index member held
    obtain ⟨-, header, -, -, -, found, bound⟩ := made.member_header held
    exact (made.size_le index (member, header) bound found).1 (made.level_eq ▸ mirror)
  · intro stripe
    obtain ⟨chunk, divides, sectors⟩ := made.stripe_size (made.level_eq ▸ stripe)
    refine ⟨chunk, divides, sectors, fun index member held => ?_⟩
    obtain ⟨-, header, -, -, -, found, bound⟩ := made.member_header held
    exact (made.size_le index (member, header) bound found).2 (made.level_eq ▸ stripe)

theorem Assembled.keeps_inv
    (volumes : m'.volumes = m.volumes) (disks : m'.disks = m.disks) : Inv (m'.put slot (some volume)) t := by
  have follows := made.follows inv track current small
  have header : ∀ member, (m'.put slot (some volume)).header member = m.header member := by
    intro member
    change m'.header member = m.header member
    rw [Machine.header, disks, Machine.header]
  have disk : ∀ member, (m'.put slot (some volume)).disks member = m.disks member := fun member => by
    rw [← disks]
    rfl
  have place : ∀ j, (m'.put slot (some volume)).volume j = if j = slot then some volume else m.volume j := by
    intro j
    rw [volume_put m' made.bound, volume_congr volumes]
  refine ⟨?_, ?_, ?_, ?_, ?_, ?_⟩
  · intro j other found
    rw [place] at found
    split at found
    · obtain rfl := some.inj found
      exact ⟨k, made.uuid_eq ▸ track, follows.congr fun member => by rw [disk]⟩
    obtain ⟨k', track', follows'⟩ := inv.follows j other found
    exact ⟨k', track', follows'.congr fun member => by rw [disk]⟩
  · intro i j v w atI atJ same
    rw [place] at atI atJ
    split at atI <;> split at atJ
    · next hi hj => exact hi.trans hj.symm
    · next hi hj =>
      obtain rfl := some.inj atI
      exact absurd (same.symm.trans made.uuid_eq) (made.fresh j w atJ)
    · next hi hj =>
      obtain rfl := some.inj atJ
      exact absurd (same.trans made.uuid_eq) (made.fresh i v atI)
    · exact inv.apart i j v w atI atJ same
  · apply made.exclusive inv.exclusive volumes
    intro member _ j other slot' found _ held h read
    obtain ⟨h', read', uuid, -⟩ := inv.carried j other slot' member found held
    obtain rfl := mem_unique read read'
    exact uuid
  · intro j other slot' member found held
    rw [place] at found
    rw [header]
    split at found
    · obtain rfl := some.inj found
      obtain ⟨-, h, read, uuid, at_slot, keptIs, -⟩ := made.member_header held
      refine ⟨h, read, uuid.trans made.uuid_eq.symm, fun working => ⟨?_, at_slot⟩⟩
      have bound : slot' < k.count := follows.count ▸ follows.bound slot' member held
      rw [follows.failed slot' bound] at working
      obtain ⟨_, held', now⟩ := made.all_current inv track current bound
        ((made.events_current inv track current).symm ▸ working)
      obtain rfl := mem_unique keptIs held'
      exact now
    · exact inv.carried j other slot' member found held
  · intro member h k' read track'
    rw [header] at read
    exact (inv.fits member h k' read track').congr (by rw [disk]) fun _ _ => by rw [disk]
  · intro uuid k' track' events less
    simp only [header]
    exact inv.superseded uuid k' track' events less

end

end

end AerOS.Proof.Raid
