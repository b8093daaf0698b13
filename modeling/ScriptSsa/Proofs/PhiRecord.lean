import Mathlib.Data.List.Nodup
import ScriptSsa.Phi

/-!
The phi record as a map that keeps the order of first insertion.

Entries are looked up by their keys and stand in the order in which the keys came in: a key that is new goes to the
end, one that is there keeps its position and gets another entry. To finish a record is to look for the first entry
without inputs.
-/

namespace ScriptSsa.Phi

namespace Entries

variable {phi key : InstrId} {entry new old : Entry} {entries before after : Entries}

/-- The phis, in the order of their entries. -/
def keys (entries : Entries) : List InstrId := entries.map Prod.fst

/-- An insertion adds its key at the end unless it is there. -/
theorem keys_insert :
    keys (entries.insert phi entry) = if phi ∈ keys entries then keys entries else keys entries ++ [phi] := by
  induction entries with
  | nil => rfl
  | cons e rest ih =>
      by_cases heq : e.1 = phi
      · have hmem : phi ∈ keys (e :: rest) := List.mem_cons.mpr (.inl heq.symm)
        rw [insert, if_pos heq, if_pos hmem]
        rfl
      · have hiff : phi ∈ keys (e :: rest) ↔ phi ∈ keys rest := List.mem_cons.trans (or_iff_right (Ne.symm heq))
        rw [insert, if_neg heq]
        show e.1 :: keys (insert phi entry rest) = _
        rw [ih]
        by_cases hrest : phi ∈ keys rest
        · rw [if_pos hrest, if_pos (hiff.mpr hrest)]
          rfl
        · rw [if_neg hrest, if_neg (mt hiff.mp hrest)]
          rfl

theorem nodup_keys_insert (h : (keys entries).Nodup) : (keys (entries.insert phi entry)).Nodup := by
  rw [keys_insert]
  by_cases hphi : phi ∈ keys entries
  · rw [if_pos hphi]
    exact h
  · rw [if_neg hphi, ← List.concat_eq_append]
    exact h.concat hphi

theorem mem_of_find? (h : entries.find? phi = some entry) : (phi, entry) ∈ entries := by
  obtain ⟨e, he, rfl⟩ := Option.map_eq_some_iff.mp h
  have hkey : e.1 = phi := by simpa using List.find?_some he
  exact hkey ▸ List.mem_of_find?_eq_some he

/-- A key is there exactly if it is found. -/
theorem mem_keys_iff : phi ∈ keys entries ↔ ∃ entry, entries.find? phi = some entry := by
  constructor
  · intro h
    obtain ⟨e, hmem, heq⟩ := List.mem_map.mp h
    have hsome : (List.find? (fun e : InstrId × Entry => e.1 = phi) entries).isSome :=
      List.find?_isSome.mpr ⟨e, hmem, decide_eq_true heq⟩
    exact Option.isSome_iff_exists.mp (Option.isSome_map.trans hsome)
  · rintro ⟨entry, hfind⟩
    exact List.mem_map_of_mem (mem_of_find? hfind)

theorem keys_insert_of_find? (h : entries.find? phi = some entry) : keys (entries.insert phi new) = keys entries := by
  rw [keys_insert, if_pos (mem_keys_iff.mpr ⟨entry, h⟩)]

/-- With distinct keys every entry is found under its own. -/
theorem find?_of_mem (hnodup : (keys entries).Nodup) (h : (phi, entry) ∈ entries) :
    entries.find? phi = some entry := by
  induction entries with
  | nil => cases h
  | cons e rest ih =>
      obtain ⟨hnotmem, hrest⟩ := List.nodup_cons.mp hnodup
      rcases List.mem_cons.mp h with rfl | hmem
      · simp [find?]
      · have hne : e.1 ≠ phi := fun heq => hnotmem (heq ▸ List.mem_map_of_mem hmem)
        have hfind := ih hrest hmem
        simp only [find?, List.find?_cons, hne, decide_false] at hfind ⊢
        exact hfind

/-- The entry of the inserted phi is the new one, and the others are as they were. -/
theorem mem_insert_iff (hnodup : (keys entries).Nodup) :
    (key, entry) ∈ entries.insert phi new ↔ if key = phi then entry = new else (key, entry) ∈ entries := by
  have hinserted : (key, entry) ∈ entries.insert phi new ↔ (entries.insert phi new).find? key = some entry :=
    ⟨find?_of_mem (nodup_keys_insert hnodup), mem_of_find?⟩
  rw [hinserted]
  by_cases heq : key = phi
  · rw [if_pos heq, heq, find?_insert_self, Option.some.injEq, eq_comm]
  · rw [if_neg heq, find?_insert_of_ne heq]
    exact ⟨mem_of_find?, find?_of_mem hnodup⟩

theorem insert_of_notMem (h : phi ∉ keys before) : before.insert phi entry = before ++ [(phi, entry)] := by
  induction before with
  | nil => rfl
  | cons e rest ih =>
      obtain ⟨hne, hrest⟩ := not_or.mp (mt List.mem_cons.mpr h)
      rw [insert, if_neg (Ne.symm hne), ih hrest, List.cons_append]

/-- An entry is exchanged in its place. -/
theorem insert_middle (h : phi ∉ keys before) :
    insert phi entry (before ++ (phi, old) :: after) = before ++ (phi, entry) :: after := by
  induction before with
  | nil => simp [insert]
  | cons e rest ih =>
      obtain ⟨hne, hrest⟩ := not_or.mp (mt List.mem_cons.mpr h)
      rw [List.cons_append, insert, if_neg (Ne.symm hne), ih hrest, List.cons_append]

theorem find?_middle (h : phi ∉ keys before) :
    find? phi (before ++ (phi, entry) :: after) = some entry := by
  have hsame : insert phi entry (before ++ (phi, entry) :: after) = before ++ (phi, entry) :: after :=
    insert_middle h
  rw [← hsame]
  exact find?_insert_self _ _ _

end Entries

namespace Recorder

variable {r : Recorder} {table : Table} {e : BuildError}

/-- A record is finished as it is, provided that no entry has been left without inputs. -/
theorem finish_eq_ok_iff : r.finish = .ok table ↔ table.entries = r.entries ∧ ∀ e ∈ r.entries, e.2.inputs ≠ [] := by
  have hfull : List.find? (fun e => e.2.inputs.isEmpty) r.entries = none ↔ ∀ e ∈ r.entries, e.2.inputs ≠ [] := by
    simp only [List.find?_eq_none, List.isEmpty_iff, ne_eq]
  rw [finish, ← hfull]
  cases List.find? (fun e => e.2.inputs.isEmpty) r.entries with
  | none =>
      simp only [Except.ok.injEq, and_true]
      exact ⟨fun h => h ▸ rfl, fun h => by rw [← h]⟩
  | some found => simp

theorem finish_entries (h : r.finish = .ok table) : table.entries = r.entries := (finish_eq_ok_iff.mp h).1

/-- The error names the first phi without inputs. -/
theorem finish_eq_error (h : r.finish = .error e) :
    ∃ before phi entry after, r.entries = before ++ (phi, entry) :: after ∧ e = .unresolvedPhi phi ∧
      entry.inputs = [] ∧ ∀ e ∈ before, e.2.inputs ≠ [] := by
  rw [finish] at h
  cases hfind : List.find? (fun e => e.2.inputs.isEmpty) r.entries with
  | none =>
      rw [hfind] at h
      cases h
  | some found =>
      obtain ⟨phi, entry⟩ := found
      obtain ⟨hempty, before, after, hentries, hbefore⟩ := List.find?_eq_some_iff_append.mp hfind
      rw [hfind] at h
      exact ⟨before, phi, entry, after, hentries, (Except.error.inj h).symm, List.isEmpty_iff.mp hempty,
        fun e he => by simpa using hbefore e he⟩

end Recorder

end ScriptSsa.Phi
