import AerOS.Proof.Raid.Calls

namespace AerOS.Proof.Raid
open AerOS.Raid Lib Lib.Action Function
variable {D : Type}
variable {member : D} {members : List D} {m : Machine D} {index slot : Nat} {volume : Volume D}
variable {roster : Nat → Option (Nat → Option D)} {m' : Machine D} {io : Answers D} {first : D × Header}
  {rest : List (D × Header)}

theorem Roster.fills_iff (h : Roster roster m) (index slot : Nat) (member : D) : m.Fills index slot member ↔
      slot < maxMembers ∧ ∃ members, roster index = some members ∧ members slot = some member := by
  rw [← h index]
  constructor
  · rintro ⟨volume, found, bound, fills⟩
    exact ⟨bound, volume.members, by rw [found, Option.map_some], fills⟩
  rintro ⟨bound, members, found, fills⟩
  obtain ⟨volume, held, rfl⟩ := Option.map_eq_some_iff.mp found
  exact ⟨volume, held, bound, fills⟩

theorem Roster.exclusive
    (h : Roster roster m) (h' : Roster roster m') (exclusive : Exclusive m) : Exclusive m' := by
  intro member index slot index' slot' fills fills'
  rw [h'.fills_iff, ← h.fills_iff] at fills fills'
  exact exclusive member index slot index' slot' fills fills'

theorem fills_put (bound : index < maxVolumes) (volume : Volume D) (j slot : Nat) (member : D) :
    (m.put index (some volume)).Fills j slot member ↔
      if j = index then slot < maxMembers ∧ volume.members slot = some member
      else m.Fills j slot member := by
  unfold Machine.Fills
  rw [volume_put m bound]
  split
  · constructor
    · rintro ⟨_, same, small, fills⟩
      cases same
      exact ⟨small, fills⟩
    · rintro ⟨small, fills⟩
      exact ⟨volume, rfl, small, fills⟩
  · rfl

theorem exclusive_put (exclusive : Exclusive m) (bound : index < maxVolumes)
    (distinct : ∀ member slot slot', slot < maxMembers → slot' < maxMembers →
      volume.members slot = some member → volume.members slot' = some member → slot = slot')
    (apart : ∀ member slot, slot < maxMembers → volume.members slot = some member →
      ∀ j slot', j ≠ index → ¬ m.Fills j slot' member) : Exclusive (m.put index (some volume)) := by
  intro member i slot j slot' fills fills'
  rw [fills_put bound] at fills fills'
  split at fills
  next here =>
    split at fills'
    next here' =>
      exact ⟨here.trans here'.symm, distinct member slot slot' fills.1 fills'.1 fills.2 fills'.2⟩
    next there => exact absurd fills' (apart member slot fills.1 fills.2 j slot' there)
  next there =>
    split at fills'
    next here' => exact absurd fills (apart member slot' fills'.1 fills'.2 i slot there)
    next _ => exact exclusive member i slot j slot' fills fills'

theorem exclusive_congr (m m' : Machine D) (same : m'.volumes = m.volumes) (h : Exclusive m) : Exclusive m' :=
  (roster_self m).exclusive (roster_congr m m' same (roster_self m)) h

theorem fills_congr (same : m'.volumes = m.volumes) (index slot : Nat)
    (member : D) : m'.Fills index slot member ↔ m.Fills index slot member := by
  rw [(roster_self m).fills_iff, (roster_congr m m' same (roster_self m)).fills_iff]

section
variable {uuid : Uuid} {level : Level} (created : Created m uuid level members slot volume)
include created

theorem Created.distinct {i j : Nat} (hi : volume.members i = some member) (hj : volume.members j = some member) :
    i = j := by
  rw [created.members_eq] at hi hj
  obtain ⟨small, _⟩ := List.getElem?_eq_some_iff.mp hi
  exact (List.getElem?_inj small created.nodup).mp (hi.trans hj.symm)

theorem Created.exclusive (exclusive : Exclusive m) : Exclusive (m.put slot (some volume)) := by
  apply exclusive_put exclusive created.bound
  · exact fun member i j _ _ => created.distinct
  · intro member i _ hi j slot' _ fills
    rw [created.members_eq] at hi
    exact created.unused member (List.mem_of_getElem? hi) j slot' fills

end

section
variable (made : Assembled m io members first rest slot volume)
include made

theorem Assembled.kept_header {entry : D × Header} (held : kept first rest index = some entry) :
    entry.1 ∈ members ∧ m.header entry.1 = some entry.2 ∧ entry.2.uuid = first.2.uuid ∧
      entry.2.slot = index := by
  obtain ⟨mem, uuid, place⟩ := kept_mem held
  rw [← made.readable] at mem
  obtain ⟨given, read⟩ := readable_header mem
  exact ⟨given, read, uuid, place⟩

theorem Assembled.member_header (h : volume.members index = some member) :
    member ∈ members ∧ ∃ header, m.header member = some header ∧ header.uuid = first.2.uuid ∧
      header.slot = index ∧ kept first rest index = some (member, header) ∧ index < first.2.count := by
  rw [made.members_eq] at h
  split at h
  · next bound =>
    obtain ⟨⟨_, header⟩, held, rfl⟩ := Option.map_eq_some_iff.mp h
    obtain ⟨given, read, uuid, place⟩ := made.kept_header held
    exact ⟨given, header, read, uuid, place, held, bound⟩
  · cases h

/-- A disk carries one header, and it is put into the slot that its header names. -/
theorem Assembled.distinct {i j : Nat} (hi : volume.members i = some member) (hj : volume.members j = some member) :
    i = j := by
  obtain ⟨-, _, read, -, place, -⟩ := made.member_header hi
  obtain ⟨-, _, read', -, place', -⟩ := made.member_header hj
  obtain rfl := Option.mem_unique read read'
  exact place.symm.trans place'

theorem Assembled.exclusive (exclusive : Exclusive m) (volumes : m'.volumes = m.volumes)
    (free : MembersFree m (.call io (.assembleFrom members))) :
    Exclusive (m'.put slot (some volume)) := by
  apply exclusive_put (exclusive_congr m m' volumes exclusive) made.bound
  · exact fun member i j _ _ => made.distinct
  intro member i _ hi j slot' _ fills
  obtain ⟨given, header, read, uuid, -⟩ := made.member_header hi
  obtain ⟨other, held, small, holds⟩ := (fills_congr volumes j slot' member).mp fills
  have named := free member given j other slot' held small holds header read
  exact made.fresh j other held (named.symm.trans uuid)

end

theorem replaced_exclusive (exclusive : Exclusive m) (found : m.volume index = some volume)
    (free : ∀ j slot', m.Fills j slot' member → j = index ∧ slot' = slot) :
    Exclusive (m.put index (some (replaced volume slot member))) := by
  have fills_old : ∀ {i disk}, i < maxMembers → i ≠ slot →
      (replaced volume slot member).members i = some disk → m.Fills index i disk := by
    intro i disk small other held
    exact ⟨volume, found, small, (replaced_members member other).symm.trans held⟩
  have new : (replaced volume slot member).members slot = some member := update_self _ _ _
  apply exclusive_put exclusive (volume_bound found)
  · intro disk i j small small' hi hj
    by_cases atI : i = slot <;> by_cases atJ : j = slot
    · exact atI.trans atJ.symm
    · subst atI
      obtain rfl := Option.mem_unique new hi
      exact (free index j (fills_old small' atJ hj)).2.symm
    · subst atJ
      obtain rfl := Option.mem_unique new hj
      exact (free index i (fills_old small atI hi)).2
    · exact (exclusive disk index i index j (fills_old small atI hi) (fills_old small' atJ hj)).2
  · intro disk i small hi j slot' other fills
    by_cases atI : i = slot
    · subst atI
      obtain rfl := Option.mem_unique new hi
      exact other (free j slot' fills).1
    · exact other (exclusive disk index i j slot' (fills_old small atI hi) fills).1.symm

theorem bump_exclusive [DecidableEq D] (io : Answers D) (bound : index < maxVolumes)
    (stored : Exclusive (m.put index (some volume))) :
    wp (bump io index volume) (fun _ m' => Exclusive m') (fun _ m' => Exclusive m') m := by
  unfold bump
  split
  · apply preserves_persist io fun m m' same _ => exclusive_congr m m' same
    have place : (m.put index (some volume)).volume index = some volume := by
      rw [volume_put m bound, if_pos rfl]
    have kept := roster_self (m.put index (some volume))
    exact kept.exclusive (kept.put place rfl) stored
  · exact stored

theorem replace_exclusive [DecidableEq D] (exclusive : Exclusive m) (io : Answers D) {inUse : D → Bool}
    (free : MembersFree m (.call io (.replace inUse index slot member))) :
    wp (replace io inUse index slot member) (fun _ m' => Exclusive m') (fun _ m' => Exclusive m') m := by
  apply replace_wp
  · intro _
    exact exclusive
  intro volume _ source found _ _ _ _ _
  have same : ∀ m₁ m₂ : Machine D, m₂.volumes = m₁.volumes → m₂.usable = m₁.usable →
      m₁.volumes = m.volumes → m₂.volumes = m.volumes := fun _ _ h₁ _ h₂ => h₁.trans h₂
  refine wp_mono (preserves_copyOver io same source member _ _ _ m rfl) ?_ ?_
  · intro _ m' volumes
    have before := exclusive_congr m m' volumes exclusive
    have place : m'.volume index = some volume := (volume_congr volumes index).trans found
    refine ⟨fun _ => ?_, fun _ => before⟩
    apply bump_exclusive io (volume_bound found)
    exact replaced_exclusive before place fun j slot' fills =>
      free j slot' ((fills_congr volumes j slot' member).mp fills)
  · intro _ m' volumes
    exact exclusive_congr m m' volumes exclusive

theorem stop_exclusive (index : Nat) : Preserves Exclusive (stop index : Step D Bool) := by
  apply preserves_get_bind
  intro m exclusive
  cases found : m.volume index with
  | none => exact exclusive
  | some volume =>
    have fewer : ∀ {j slot member}, (m.put index none).Fills j slot member → m.Fills j slot member := by
      rintro j slot member ⟨other, held, rest⟩
      rw [volume_put m (volume_bound found)] at held
      split at held
      · cases held
      · exact ⟨other, held, rest⟩
    intro member i slot j slot' fills fills'
    exact exclusive member i slot j slot' (fewer fills) (fewer fills')

theorem roster_exclusive {α : Type} {x : Step D α}
    (h : ∀ roster, Preserves (Roster roster) x) : Preserves Exclusive x := by
  intro m exclusive
  have kept := h _ m (roster_self m)
  exact wp_mono kept (fun _ _ roster => (roster_self m).exclusive roster exclusive)
    (fun _ _ roster => (roster_self m).exclusive roster exclusive)

theorem settle_of_wp {x : Step D Bool} {P : Bool → Machine D → Prop}
    (h : wp x (fun success m' => P success m') (fun _ m' => P false m') m) :
    P (settle (x m)).1 (settle (x m)).2 := by
  unfold wp at h
  rcases result : x m with ⟨_ | _, m'⟩
  · rw [result] at h
    exact h
  rw [result] at h
  exact h

theorem step_exclusive [DecidableEq D] (exclusive : Exclusive m) {event : Event D}
    (free : MembersFree m event) : Exclusive (m.step event) := by
  cases event with
  | change _ => exact exclusive_congr m _ rfl exclusive
  | call io call =>
    refine settle_of_wp (x := call.action io) (P := fun _ m' => Exclusive m') ?_
    cases call with
    | create inUse _ _ _ members =>
      rw [Call.action, wp_bind]
      apply create_wp
      · exact fun _ => exclusive
      intro slot _ created
      exact preserves_persist io (fun m m' same _ => exclusive_congr m m' same) slot _ (created.exclusive exclusive)
    | assembleFrom members =>
      rw [Call.action, wp_bind]
      apply assembleFrom_wp
      · exact fun _ m' volumes _ => exclusive_congr m m' volumes exclusive
      · exact fun _ _ _ _ _ made volumes _ => made.exclusive exclusive volumes free
    | read index lba count available =>
      refine preserves_bind ?_ (fun _ => preserves_pure _) m exclusive
      exact roster_exclusive fun _ => transfer_roster io _ _ _ _ _
    | write index lba count available _ =>
      refine preserves_bind ?_ (fun _ => preserves_pure _) m exclusive
      exact roster_exclusive fun _ => transfer_roster io _ _ _ _ _
    | fail index slot => exact roster_exclusive (fun _ => fail_roster io index slot) m exclusive
    | replace inUse index slot _ =>
      rw [Call.action, wp_bind]
      exact replace_exclusive exclusive io free
    | stop index => exact stop_exclusive index m exclusive

theorem exclusive_initial (disks : D → Disk) : Exclusive (Machine.initial disks) := by
  rintro _ _ _ _ _ ⟨volume, found, -⟩
  unfold Machine.volume Machine.initial at found
  split at found <;> cases found

theorem exclusive_of_members_free [DecidableEq D] (disks : D → Disk) (events : List (Event D))
    (free : Run.Along Machine.step MembersFree (Machine.initial disks) events) :
    Run.Throughout Machine.step Exclusive (Machine.initial disks) events := by
  exact Run.throughout_of_along (fun _ _ exclusive => step_exclusive exclusive) (fun _ h => h)
    (exclusive_initial disks) free

def working : Answers D := ⟨fun _ _ _ => true, fun _ _ _ => .done⟩

def blank (sectors : Nat) : Disk := ⟨sectors, fun _ => Buffer.zero⟩

def mirrorOf (members : List D) : Event D := .call working (.create (fun _ => false) 0 .mirror 0 members)

theorem replaced_mirror_exclusive :
    Run.Throughout Machine.step Exclusive (Machine.initial fun _ : Fin 3 => blank 2)
      [mirrorOf [0, 1], .call working (.fail 0 1),
        .call working (.replace (fun _ => false) 0 1 2), .call working (.stop 0)] := by
  apply exclusive_of_members_free
  refine ⟨trivial, trivial, ?_, trivial, trivial⟩
  intro index slot fills
  refine absurd fills (not_fills_of_free ?_ index slot)
  decide +kernel

theorem replace_by_member_fills_twice :
    ¬ Exclusive (Run.final Machine.step (Machine.initial fun _ : Fin 2 => blank 2)
      [mirrorOf [0, 1], .call working (.replace (fun _ => false) 0 1 0)]) := by
  generalize last : Run.final (Machine.step (D := Fin 2)) _ _ = m
  have slots : (m.volume 0).map (fun volume => (volume.members 0, volume.members 1)) =
      some (some 0, some 0) := by
    rw [← last]
    decide +kernel
  obtain ⟨volume, found, members⟩ := Option.map_eq_some_iff.mp slots
  obtain ⟨first, second⟩ := Prod.mk.inj members
  intro exclusive
  have same := exclusive 0 0 0 0 1 ⟨volume, found, by decide, first⟩ ⟨volume, found, by decide, second⟩
  exact absurd same.2 (by decide)

end AerOS.Proof.Raid
