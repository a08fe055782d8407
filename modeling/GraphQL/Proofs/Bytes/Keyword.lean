import GraphQL.Proofs.Bytes.Cuts

/-!
# Looking keywords up

The hash table finds the keyword that a search through all keywords finds, for every name whatever
(`Keyword.lookup_eq_search`).  The slot can be computed from the bytes of the name by arithmetic of
32 bits that wraps around (`Keyword.ofBytes`); it is always one of the table.

A lookup compares the name with the only candidate of its slot, so it finds no keyword but the name
itself (`Keyword.text_of_ofName?`, `Keyword.ofBytes_sound`).  That each keyword is the candidate of
its own slot is a fact about nineteen names.
-/

namespace GraphQL

namespace Keyword

/-! ### Lookups in the bytes of a name -/

/-- The slot of a name with the given second and third bytes. -/
def byteSlot (second third : UInt8) : UInt32 :=
  ((second.toUInt32 ||| third.toUInt32 <<< 8) * 19637591) >>> 27 &&& 0x1F

/-- The keyword that a name is, looked up by its bytes. -/
def ofBytes (name : List UInt8) : Checked (Option Keyword) :=
  if name.length = 2 then
    .ok (if name = utf8 on.text.toList then some on else none)
  else if name.length < 3 then .ok none
  else do
    let second ← entryAt name 1
    let third ← entryAt name 2
    let candidate? ← entryAt slots (byteSlot second third).toNat
    return candidate?.filter fun k => utf8 k.text.toList = name

/-- No slot is beyond the table. -/
theorem byteSlot_lt (second third : UInt8) : (byteSlot second third).toNat < slots.length := by
  rw [byteSlot, UInt32.toNat_and]
  exact Nat.and_lt_two_pow _ (n := 5) (by decide)

theorem slot_lt (second third : Char) : slot second third < slots.length := by
  rw [slot, Nat.shiftRight_eq_div_pow]
  exact Nat.div_lt_of_lt_mul (Nat.mod_lt _ (by decide))

/-- The bytes of any name are looked up without a fault, and no keyword is found but the name
itself. -/
theorem ofBytes_sound (name : List UInt8) :
    ∃ found?, ofBytes name = .ok found? ∧ ∀ k ∈ found?, utf8 k.text.toList = name := by
  unfold ofBytes
  split
  · refine ⟨_, rfl, fun k hk => ?_⟩
    split at hk
    · rename_i h
      obtain rfl : k = on := (Option.some.inj hk).symm
      exact h.symm
    · cases hk
  · split
    · exact ⟨none, rfl, fun _ hk => nomatch hk⟩
    · obtain ⟨second, hsecond⟩ := exists_entryAt (show 1 < name.length by omega)
      obtain ⟨third, hthird⟩ := exists_entryAt (show 2 < name.length by omega)
      obtain ⟨candidate?, hcandidate⟩ := exists_entryAt (byteSlot_lt second third)
      rw [hsecond, Checked.ok_bind, hthird, Checked.ok_bind, hcandidate, Checked.ok_bind]
      refine ⟨_, rfl, fun k hk => ?_⟩
      simpa using (Option.filter_eq_some_iff.1 hk).2

/-- Each keyword is the candidate of its own slot. -/
theorem ofBytes_text (k : Keyword) : ofBytes (utf8 k.text.toList) = .ok (some k) := by
  cases k <;> decide

theorem ofName?_text (k : Keyword) : ofName? k.text = some k := by
  cases k <;> decide

theorem mem_all (k : Keyword) : k ∈ all := by
  cases k <;> decide

/-! ### Searching all keywords -/

/-- The keyword that a name is, searched for among all keywords. -/
def search (name : String) : Option Keyword := all.find? (·.text == name)

theorem search_eq_some {name : String} {k : Keyword} : search name = some k ↔ k.text = name := by
  have hfound : ∀ {j}, search name = some j → j.text = name := fun h =>
    beq_iff_eq.1 (List.find?_some (p := fun k : Keyword => k.text == name) h)
  refine ⟨hfound, ?_⟩
  rintro rfl
  have hsome : (search k.text).isSome := List.find?_isSome.2 ⟨k, mem_all k, beq_self_eq_true _⟩
  obtain ⟨j, hj⟩ := Option.isSome_iff_exists.1 hsome
  rw [hj, text_injective (hfound hj)]

theorem ofName?_eq_search (name : String) : ofName? name = search name := by
  refine Option.ext fun k => ?_
  rw [search_eq_some]
  exact ⟨text_of_ofName?, fun h => h ▸ ofName?_text k⟩

theorem ofBytes_eq_search (name : String) :
    ofBytes (utf8 name.toList) = .ok (search name) := by
  obtain ⟨found?, hfound, hsound⟩ := ofBytes_sound (utf8 name.toList)
  rw [hfound, Except.ok.injEq]
  refine Option.ext fun k => ?_
  rw [search_eq_some]
  constructor
  · exact fun hk => String.toList_injective (utf8_injective (hsound k hk))
  · rintro rfl
    rw [ofBytes_text] at hfound
    exact (Except.ok.inj hfound).symm

/-- **A lookup in the hash table is a search through all keywords**, by characters and by bytes.  A
name is of the kind of a keyword exactly if it is the keyword's text, and no slot is beyond the
table. -/
theorem lookup_eq_search (name : String) :
    ofName? name = search name ∧ ofBytes (utf8 name.toList) = .ok (search name) ∧
      (∀ k, TokenKind.ofName name = .keyword k ↔ name = k.text) ∧
      (TokenKind.ofName name = .name ↔ ∀ k : Keyword, name ≠ k.text) ∧
      (∀ second third, slot second third < slots.length) ∧
      ∀ second third, (byteSlot second third).toNat < slots.length := by
  have hname := ofName?_eq_search name
  refine ⟨hname, ofBytes_eq_search name, fun k => ?_, ?_, slot_lt, byteSlot_lt⟩
  · rw [TokenKind.ofName, hname, eq_comm (a := name), ← search_eq_some]
    cases search name <;> simp
  · rw [TokenKind.ofName, hname]
    cases h : search name with
    | none => simpa using fun k hk => by simpa [h] using search_eq_some.2 hk.symm
    | some j => simpa using ⟨j, (search_eq_some.1 h).symm⟩

end Keyword

end GraphQL
