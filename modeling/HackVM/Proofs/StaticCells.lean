/-
  Static cells over a run of requests to a compiler state. The cells in use stay within `room`
  (`Statics.Fits`), and a switch of modules puts all later cells behind those in use
  (`statics_handleAll`). Hence two static resolutions share a cell iff their indices are equal and
  no switch lies between them (`static_cells_never_alias`).
-/
import Mathlib
import HackVM.Proofs.Lowering

namespace HackVM

open Assembly

/-- The address of a direct operand. -/
def Operand.fixed? : Operand → Option Word
  | .direct (.const address) => some address
  | .direct (.reg register) => some register.address
  | .immediate _ | .pointer _ _ | .direct (.symbol _) => none

/-! ## The allocator -/

namespace Statics

variable {statics : Statics}

/-- The number of static cells below `literalCount`. -/
def room : Nat := Segment.literalCount - Segment.staticBase.toNat

/-- `offset + mark ≤ room`. -/
def Fits (statics : Statics) : Prop := statics.offset + statics.mark ≤ room

theorem saturatingAdd_of_le {m n : Nat} (h : m + n ≤ 65535) : saturatingAdd m n = m + n :=
  min_eq_left h

theorem Fits.switch_eq (h : statics.Fits) :
    statics.switch = ⟨statics.offset + statics.mark, 0⟩ := by
  have hle : statics.offset + statics.mark ≤ 32752 := h
  rw [switch, saturatingAdd_of_le (by omega)]

theorem Fits.switch (h : statics.Fits) : statics.switch.Fits := by
  rw [h.switch_eq]
  exact h

/-- `index < indexLimit` gives `offset + index < room`. -/
theorem lt_room_of_lt_limit {index : Nat} (h : index < statics.indexLimit) :
    statics.offset + index < room := by
  have hlt : index < room - statics.offset := h
  omega

theorem use_eq {index : Nat} (h : index < statics.indexLimit) :
    statics.use index = { statics with mark := max statics.mark (index + 1) } := by
  have hlt : statics.offset + index < 32752 := lt_room_of_lt_limit h
  rw [use, saturatingAdd_of_le (by omega)]

theorem Fits.use {index : Nat} (h : statics.Fits) (hindex : index < statics.indexLimit) :
    (statics.use index).Fits := by
  have hle : statics.offset + statics.mark ≤ room := h
  have hlt := lt_room_of_lt_limit hindex
  rw [use_eq hindex]
  change statics.offset + max statics.mark (index + 1) ≤ room
  omega

end Statics

/-! ## Segments at fixed cells -/

namespace Compile

/-- A static resolution gives the cell `16 + slot index` and `use index`. -/
theorem resolve_static {s s' : State} {name : String} {index : Word} {resolved : Resolved}
    (h : s.resolve name index = (.ok resolved, s')) (hstatic : resolved.segment = .static) :
    index.toNat < s.statics.indexLimit ∧ s' = { s with statics := s.statics.use index.toNat } ∧
      resolved.operand = .direct (.const (UInt16.ofNat (Statics.saturatingAdd
        Segment.staticBase.toNat (s.statics.slot index.toNat)))) := by
  obtain ⟨segment, -, hlimit, rfl, rfl⟩ := resolve_eq_ok_iff.1 h
  cases hstatic
  exact ⟨hlimit.trans_le (min_le_right _ _), rfl, rfl⟩

/-- Below `indexLimit` no sum saturates: the cell is `16 + offset + index`. -/
theorem toNat_staticCell {statics : Statics} {index : Nat} (h : index < statics.indexLimit) :
    statics.slot index = statics.offset + index ∧
      Statics.saturatingAdd Segment.staticBase.toNat (statics.slot index) =
        16 + statics.offset + index ∧
      (UInt16.ofNat (Statics.saturatingAdd Segment.staticBase.toNat
        (statics.slot index))).toNat = 16 + statics.offset + index := by
  have hlt : statics.offset + index < 32752 := Statics.lt_room_of_lt_limit h
  have hslot : statics.slot index = statics.offset + index :=
    Statics.saturatingAdd_of_le (by omega)
  have hsum : Statics.saturatingAdd Segment.staticBase.toNat (statics.slot index) =
      16 + statics.offset + index := by
    rw [hslot, show Segment.staticBase.toNat = 16 from rfl, Statics.saturatingAdd_of_le (by omega),
      Nat.add_assoc]
  refine ⟨hslot, hsum, ?_⟩
  rw [hsum]
  exact UInt16.toNat_ofNat_of_lt' (show _ < 65536 by omega)

theorem resolve_temp {s s' : State} {name : String} {index : Word} {resolved : Resolved}
    (h : s.resolve name index = (.ok resolved, s')) (htemp : resolved.segment = .temp) :
    ∃ cell, resolved.operand.fixed? = some cell ∧ 5 ≤ cell.toNat ∧ cell.toNat ≤ 12 := by
  obtain ⟨segment, -, hlimit, rfl, -⟩ := resolve_eq_ok_iff.1 h
  cases htemp
  have hindex : index.toNat < 8 := hlimit
  have hcell : (UInt16.ofNat (Statics.saturatingAdd Segment.tempBase.toNat index.toNat)).toNat =
      5 + index.toNat := by
    rw [show Segment.tempBase.toNat = 5 from rfl, Statics.saturatingAdd_of_le (by omega)]
    exact UInt16.toNat_ofNat_of_lt' (show _ < 65536 by omega)
  exact ⟨_, rfl, by omega, by omega⟩

theorem resolve_pointer {s s' : State} {name : String} {index : Word} {resolved : Resolved}
    (h : s.resolve name index = (.ok resolved, s')) (hpointer : resolved.segment = .pointer) :
    ∃ cell, resolved.operand.fixed? = some cell ∧ 3 ≤ cell.toNat ∧ cell.toNat ≤ 4 := by
  obtain ⟨segment, -, hlimit, rfl, -⟩ := resolve_eq_ok_iff.1 h
  cases hpointer
  have hindex : index.toNat < 2 := hlimit
  have htwo : index = 0 ∨ index = 1 := by
    rw [← UInt16.toNat_inj, ← UInt16.toNat_inj]
    simp only [UInt16.toNat_zero, UInt16.toNat_one]
    omega
  rcases htwo with rfl | rfl
  · exact ⟨3, rfl, by decide, by decide⟩
  · exact ⟨4, rfl, by decide, by decide⟩

/-! ## Runs of requests -/

/-- The operations on a compiler state that concern static cells. -/
inductive Request where
  | enter (name : String)
  | switchStatics
  | resolve (segment : String) (index : Word)
deriving DecidableEq

namespace State

/-- The state after a request, also after one that fails. -/
def handle (s : State) : Request → State
  | .enter name => (s.enter name).1
  | .switchStatics => s.switchStatics
  | .resolve segment index => (s.resolve segment index).2

/-- `handle` along `requests`. -/
def handleAll (s : State) (requests : List Request) : State := requests.foldl handle s

/-- The request switches the static cells: entering another module, or `switchStatics`. -/
def switches (s : State) : Request → Bool
  | .enter name => s.current ≠ some name
  | .switchStatics => true
  | .resolve _ _ => false

/-- Some request along the run switches. -/
def switchesAny : State → List Request → Bool
  | _, [] => false
  | s, request :: requests => s.switches request || (s.handle request).switchesAny requests

/-- Step lemma: a request switches, or leaves `statics`, or uses an index below `indexLimit`. -/
theorem statics_handle (s : State) (request : Request) :
    (s.switches request = true ∧ (s.handle request).statics = s.statics.switch) ∨
    s.switches request = false ∧ ((s.handle request).statics = s.statics ∨
      ∃ index < s.statics.indexLimit, (s.handle request).statics = s.statics.use index) := by
  cases request with
  | enter name =>
    by_cases hcurrent : s.current = some name
    · exact .inr ⟨by simp [switches, hcurrent], .inl (by simp [handle, State.enter, hcurrent])⟩
    · exact .inl ⟨by simp [switches, hcurrent], by simp [handle, State.enter, hcurrent]⟩
  | switchStatics => exact .inl ⟨rfl, rfl⟩
  | resolve segment index =>
    refine .inr ⟨rfl, ?_⟩
    obtain ⟨-, hresolve⟩ | ⟨found, -, -, hresolve⟩ | ⟨found, -, hlimit, hresolve⟩ :=
      resolve_cases s segment index
    · exact .inl (by rw [handle, hresolve])
    · exact .inl (by rw [handle, hresolve])
    · rw [handle, hresolve]
      cases found with
      | static => exact .inr ⟨_, hlimit.trans_le (min_le_right _ _), rfl⟩
      | _ => exact .inl rfl

theorem fits_handle {s : State} (h : s.statics.Fits) (request : Request) :
    (s.handle request).statics.Fits := by
  rcases s.statics_handle request with ⟨-, hnext⟩ | ⟨-, hnext | ⟨index, hindex, hnext⟩⟩
  · rw [hnext]
    exact h.switch
  · rwa [hnext]
  · rw [hnext]
    exact h.use hindex

theorem fits_handleAll {s : State} (h : s.statics.Fits) (requests : List Request) :
    (s.handleAll requests).statics.Fits := by
  induction requests generalizing s with
  | nil => exact h
  | cons request requests ih => exact ih (fits_handle h request)

/-- Run lemma: `offset` does not decrease. With a switch it passes all cells in use before, without
one it is kept. -/
theorem statics_handleAll {s : State} (h : s.statics.Fits) (requests : List Request) :
    s.statics.offset ≤ (s.handleAll requests).statics.offset ∧
      (s.switchesAny requests = true →
        s.statics.offset + s.statics.mark ≤ (s.handleAll requests).statics.offset) ∧
      (s.switchesAny requests = false →
        (s.handleAll requests).statics.offset = s.statics.offset) := by
  induction requests generalizing s with
  | nil => exact ⟨le_rfl, nofun, fun _ => rfl⟩
  | cons request requests ih =>
    obtain ⟨hmono, hleft, hkept⟩ := ih (fits_handle h request)
    have hall : s.handleAll (request :: requests) = (s.handle request).handleAll requests := rfl
    rw [hall, switchesAny]
    rcases s.statics_handle request with ⟨hswitch, hnext⟩ | ⟨hstay, hnext⟩
    · rw [hnext, h.switch_eq] at hmono
      have hmono : s.statics.offset + s.statics.mark ≤
        ((s.handle request).handleAll requests).statics.offset := hmono
      rw [hswitch, Bool.true_or]
      exact ⟨by omega, fun _ => hmono, nofun⟩
    · have hgrow : (s.handle request).statics.offset = s.statics.offset ∧
          s.statics.mark ≤ (s.handle request).statics.mark := by
        rcases hnext with hnext | ⟨index, hindex, hnext⟩
        · rw [hnext]
          exact ⟨rfl, le_rfl⟩
        · rw [hnext, Statics.use_eq hindex]
          exact ⟨rfl, le_max_left _ _⟩
      obtain ⟨hoffset, hmark⟩ := hgrow
      rw [hstay, Bool.false_or]
      refine ⟨by omega, fun hany => ?_, fun hnone => (hkept hnone).trans hoffset⟩
      have := hleft hany
      omega

/-- The state after `requests` from the initial one. -/
def after (requests : List Request) : State := handleAll {} requests

theorem fits_after (requests : List Request) : (after requests).statics.Fits :=
  fits_handleAll (Nat.zero_le _) requests

theorem after_append (requests others : List Request) :
    after (requests ++ others) = (after requests).handleAll others := List.foldl_append

theorem handle_of_ok {s s' : State} {name : String} {index : Word} {resolved : Resolved}
    (h : s.resolve name index = (.ok resolved, s')) : s.handle (.resolve name index) = s' := by
  rw [handle, h]

/-- Two static resolutions give one cell iff the indices are equal and no switch lies between
them. -/
theorem operand_eq_iff {s s₁ s₂ : State} {name name' : String} {index index' : Word}
    {resolved resolved' : Resolved} {between : List Request} (hfits : s.statics.Fits)
    (h : s.resolve name index = (.ok resolved, s₁)) (hstatic : resolved.segment = .static)
    (h' : (s₁.handleAll between).resolve name' index' = (.ok resolved', s₂))
    (hstatic' : resolved'.segment = .static) :
    resolved'.operand = resolved.operand ↔ index' = index ∧ s₁.switchesAny between = false := by
  obtain ⟨hindex, hstate, hoperand⟩ := resolve_static h hstatic
  obtain ⟨hindex', -, hoperand'⟩ := resolve_static h' hstatic'
  obtain ⟨-, -, hcell⟩ := toNat_staticCell hindex
  obtain ⟨-, -, hcell'⟩ := toNat_staticCell hindex'
  -- Behind the first resolution its index is below the mark, so a switch leaves its cell behind.
  have hoffset : s₁.statics.offset = s.statics.offset := by rw [hstate]; rfl
  have hmark : index.toNat + 1 ≤ s₁.statics.mark := by
    rw [hstate, Statics.use_eq hindex]
    exact le_max_right _ _
  have hfits₁ : s₁.statics.Fits := handle_of_ok h ▸ fits_handle hfits (.resolve name index)
  obtain ⟨-, hleft, hkept⟩ := statics_handleAll hfits₁ between
  rw [hoperand, hoperand', Operand.direct.injEq, Address.const.injEq, ← UInt16.toNat_inj, hcell,
    hcell', ← UInt16.toNat_inj (a := index')]
  cases hany : s₁.switchesAny between with
  | true =>
    have := hleft hany
    exact ⟨fun heq => by omega, fun hboth => absurd hboth.2 (by decide)⟩
  | false =>
    rw [hkept hany, hoffset]
    exact ⟨fun heq => ⟨by omega, rfl⟩, fun hboth => by rw [hboth.1]⟩

end State

/-- Resolving `name` and `index` after the requests `before` succeeds. -/
def Resolves (before : List Request) (name : String) (index : Word) (resolved : Resolved) : Prop :=
  ∃ s, (State.after before).resolve name index = (.ok resolved, s)

/-- **Static cells never alias.** After any requests, `offset + mark ≤ 32752` and no sum of the
allocator saturates, and a resolution that fails returns the state unchanged. A static index
resolves to the cell `16 + offset + index < 32768`. It is no cell of `temp` and `pointer`, and a
later static resolution gives it again iff the indices are equal and no switch lies between the
two. -/
theorem static_cells_never_alias (before : List Request) :
    (State.after before).statics.offset + (State.after before).statics.mark ≤ 32752 ∧
    Statics.saturatingAdd (State.after before).statics.offset (State.after before).statics.mark =
      (State.after before).statics.offset + (State.after before).statics.mark ∧
    (∀ name index fault, ((State.after before).resolve name index).1 = .error fault →
      ((State.after before).resolve name index).2 = State.after before) ∧
    (∀ name index resolved, Resolves before name index resolved → resolved.segment = .temp →
      ∃ cell, resolved.operand.fixed? = some cell ∧ 5 ≤ cell.toNat ∧ cell.toNat ≤ 12) ∧
    (∀ name index resolved, Resolves before name index resolved → resolved.segment = .pointer →
      ∃ cell, resolved.operand.fixed? = some cell ∧ 3 ≤ cell.toNat ∧ cell.toNat ≤ 4) ∧
    ∀ name index resolved, Resolves before name index resolved → resolved.segment = .static →
      (State.after before).statics.slot index.toNat =
        (State.after before).statics.offset + index.toNat ∧
      Statics.saturatingAdd index.toNat 1 = index.toNat + 1 ∧
      ∃ cell, resolved.operand = .direct (.const cell) ∧
        cell.toNat = 16 + (State.after before).statics.offset + index.toNat ∧
        16 ≤ cell.toNat ∧ cell.toNat ≤ 32767 ∧
        (∀ other name' index' resolved', Resolves other name' index' resolved' →
          resolved'.segment = .temp ∨ resolved'.segment = .pointer →
          resolved'.operand.fixed? ≠ some cell) ∧
        ∀ between name' index' resolved',
          Resolves (before ++ .resolve name index :: between) name' index' resolved' →
          resolved'.segment = .static →
          (resolved'.operand = .direct (.const cell) ↔ index' = index ∧
            (State.after (before ++ [.resolve name index])).switchesAny between = false) := by
  have hfits := State.fits_after before
  have hle : (State.after before).statics.offset + (State.after before).statics.mark ≤ 32752 :=
    hfits
  refine ⟨hle, Statics.saturatingAdd_of_le (by omega),
    fun name index fault hfault => (of_resolve_error (Prod.ext hfault rfl)).1,
    fun name index resolved ⟨s, hok⟩ => resolve_temp hok,
    fun name index resolved ⟨s, hok⟩ => resolve_pointer hok,
    fun name index resolved ⟨s, hok⟩ hstatic => ?_⟩
  obtain ⟨hindex, hstate, hoperand⟩ := resolve_static hok hstatic
  obtain ⟨hslot, -, hcell⟩ := toNat_staticCell hindex
  have hroom : (State.after before).statics.offset + index.toNat < 32752 :=
    Statics.lt_room_of_lt_limit hindex
  refine ⟨hslot, Statics.saturatingAdd_of_le (by omega), _, hoperand, hcell, by omega, by omega,
    ?_, ?_⟩
  · rintro other name' index' resolved' ⟨s', hok'⟩ hsegment heq
    have hlow : ∃ cell, resolved'.operand.fixed? = some cell ∧ cell.toNat ≤ 12 := by
      rcases hsegment with htemp | hpointer
      · obtain ⟨cell, hcell, -, hle⟩ := resolve_temp hok' htemp
        exact ⟨cell, hcell, hle⟩
      · obtain ⟨cell, hcell, -, hle⟩ := resolve_pointer hok' hpointer
        exact ⟨cell, hcell, by omega⟩
    obtain ⟨cell, hother, hle⟩ := hlow
    cases hother.symm.trans heq
    omega
  · rintro between name' index' resolved' ⟨s', hok'⟩ hstatic'
    have hnext : State.after (before ++ [.resolve name index]) = s := by
      rw [State.after_append]
      exact State.handle_of_ok hok
    have hsplit : State.after (before ++ .resolve name index :: between) = s.handleAll between := by
      rw [← hnext, ← State.after_append, List.append_assoc]
      rfl
    rw [hsplit] at hok'
    rw [← hoperand, hnext]
    exact State.operand_eq_iff hfits hok hstatic hok' hstatic'

/-- The first static cells of two modules. -/
theorem static_cells_never_alias_two_modules :
    Resolves [.enter "A"] "static" 0 ⟨.static, .direct (.const 16)⟩ ∧
      (∃ resolved, Resolves [.enter "A", .resolve "static" 0, .enter "B"] "static" 0 resolved ∧
        resolved.segment = .static ∧ resolved.operand ≠ .direct (.const 16)) ∧
      ∃ resolved, Resolves [.enter "A", .resolve "static" 0, .enter "A"] "static" 0 resolved ∧
        resolved.segment = .static ∧ resolved.operand = .direct (.const 16) := by
  obtain ⟨-, -, -, -, -, hstatic⟩ := static_cells_never_alias [.enter "A"]
  have hfirst : Resolves [.enter "A"] "static" 0 ⟨.static, .direct (.const 16)⟩ := ⟨_, rfl⟩
  obtain ⟨-, -, cell, hcell, -, -, -, -, hlater⟩ := hstatic "static" 0 _ hfirst rfl
  cases hcell
  have hother : Resolves [.enter "A", .resolve "static" 0, .enter "B"] "static" 0
      ⟨.static, .direct (.const 17)⟩ := ⟨_, rfl⟩
  have hsame : Resolves [.enter "A", .resolve "static" 0, .enter "A"] "static" 0
      ⟨.static, .direct (.const 16)⟩ := ⟨_, rfl⟩
  refine ⟨hfirst, ⟨_, hother, rfl, fun heq => ?_⟩, _, hsame, rfl, ?_⟩
  · have hswitch := ((hlater [.enter "B"] "static" 0 _ hother rfl).1 heq).2
    cases hswitch
  · exact (hlater [.enter "A"] "static" 0 _ hsame rfl).2 ⟨rfl, rfl⟩

end Compile

end HackVM
