import Rypipe.Foundation.RowTable
import Rypipe.Pipeline.Stages

/-! # Records under renaming and dropping

How the operations of the stages on records combine: a dict built from names and values, and the
fields left out of it. -/

namespace Rypipe.Pipeline

universe u

namespace Record

variable {V : Type u}

/-- Leaving fields out commutes with a put, which is left out as well or not by its own name. -/
theorem filter_put (keep : String → Bool) (l : List (String × Option V)) (k : String)
    (a : Option V) : (Assoc.put l k a).filter (fun p => keep p.1) =
      if keep k then Assoc.put (l.filter fun p => keep p.1) k a
      else l.filter fun p => keep p.1 := by
  induction l with
  | nil => cases h : keep k <;> simp [h]
  | cons q l ih =>
      rw [Assoc.put_cons]
      by_cases hq : q.1 = k
      · rw [if_pos hq]
        cases h : keep k
        · simp [hq, h]
        · simp [hq, h, Assoc.put_cons]
      · rw [if_neg hq, List.filter_cons, ih]
        cases h : keep k <;> cases hkeep : keep q.1 <;> simp [hkeep, hq, Assoc.put_cons]

theorem filter_putAll (keep : String → Bool) (l pairs : List (String × Option V)) :
    (putAll l pairs).filter (fun p => keep p.1) =
      putAll (l.filter fun p => keep p.1) (pairs.filter fun p => keep p.1) := by
  induction pairs generalizing l with
  | nil => rfl
  | cons p pairs ih =>
      have hcons : putAll l (p :: pairs) = putAll (Assoc.put l p.1 p.2) pairs := rfl
      rw [hcons, ih, filter_put, List.filter_cons]
      cases h : keep p.1 <;> rfl

/-- Fields can be dropped before the dict is built. -/
theorem drop_ofPairs (pairs : List (String × Option V)) (fields : List String) :
    (ofPairs pairs).drop fields = ofPairs (pairs.filter fun p => !fields.contains p.1) :=
  Record.ext (filter_putAll (fun k => !fields.contains k) [] pairs)

theorem put_of_notMem {l : List (String × Option V)} {k : String} (h : k ∉ l.map Prod.fst)
    (a : Option V) : Assoc.put l k a = l ++ [(k, a)] := by
  induction l with
  | nil => rfl
  | cons q l ih =>
      rw [List.map_cons, List.mem_cons, not_or] at h
      rw [Assoc.put_cons, if_neg (Ne.symm h.1), ih h.2, List.cons_append]

theorem putAll_of_nodup {l pairs : List (String × Option V)}
    (h : ((l ++ pairs).map Prod.fst).Nodup) : putAll l pairs = l ++ pairs := by
  induction pairs generalizing l with
  | nil => exact (List.append_nil l).symm
  | cons p pairs ih =>
      have hnew : p.1 ∉ l.map Prod.fst := by
        rw [List.map_append, List.nodup_append] at h
        exact fun hmem => h.2.2 _ hmem _ List.mem_cons_self rfl
      have hcons : putAll l (p :: pairs) = putAll (Assoc.put l p.1 p.2) pairs := rfl
      rw [hcons, put_of_notMem hnew, ih (by rwa [List.append_assoc]), List.append_assoc]
      rfl

/-- The dict of the fields of a record is the record. -/
theorem ofPairs_fields (r : Record V) : ofPairs r.fields = r :=
  Record.ext (putAll_of_nodup (l := []) r.nodup)

@[simp] theorem drop_nil (r : Record V) : r.drop [] = r :=
  Record.ext (List.filter_eq_self.mpr fun _ _ => rfl)

/-- Dropping twice drops both. -/
theorem drop_drop (r : Record V) (fields fields' : List String) :
    (r.drop fields).drop fields' = r.drop (fields ++ fields') := by
  refine Record.ext ?_
  simp only [drop, List.filter_filter]
  congr 1
  funext p
  simp [Bool.and_comm]

/-- What a dict built from names and values finds under a name is the last value put there. -/
theorem get_putAll {l : List (String × Option V)} (h : (l.map Prod.fst).Nodup)
    (pairs : List (String × Option V)) :
    Assoc.get (putAll l pairs) = assignAll (Assoc.get l) pairs := by
  induction pairs generalizing l with
  | nil => rfl
  | cons p pairs ih =>
      have hput : Assoc.get (Assoc.put l p.1 p.2) =
          Function.update (Assoc.get l) p.1 (some p.2) := by
        funext name
        rw [Assoc.get_put h, Function.update_apply]
      have hcons : putAll l (p :: pairs) = putAll (Assoc.put l p.1 p.2) pairs := rfl
      rw [hcons, ih (Assoc.nodup_put h _ _), hput]
      rfl

end Record

end Rypipe.Pipeline
