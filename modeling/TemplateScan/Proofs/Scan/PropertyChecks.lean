import TemplateScan.Proofs.Scan.Pairing
import TemplateScan.Proofs.Scan.PrintedExpressions

/-! # Property checks — the unknown properties of an output tag are those that the walk reports

    An output tag that holds a path is passed over whatever the dialect knows of the names in it.
    Its faults are the names that the walk through the schemas reports, in the order in which they
    stand: no report is missed and none is made twice, however the brackets are nested.

    * **`passes_valueTag`** — the whole tag, where it stands.
    * **`faults_eq_reports`** — its faults, in any document and any dialect. -/

namespace TemplateScan

open Text

namespace Scanner

variable {s : Scanner Lookup} {k : List Char}

/-- Where a scan opens a tag, and the text begins as an output tag does, that is opened. -/
theorem opensOutput {source : String} {dialect : Dialect} {i : Nat}
    (ho : (ofString source dialect.lookup).eventAt i = .token .openDelimiter)
    (hr : TagForm.opener .output <+: ((ofString source dialect.lookup).after i).reader.rest) :
    let s := (ofString source dialect.lookup).after i
    s.machine.step s.reader = s.machine.openTag .output s.reader.offset := by
  obtain ⟨form, ⟨tail, hform⟩, hstep⟩ :=
    Machine.step_eq_openTag (bodySound_after source dialect.lookup i) ho
  obtain ⟨k, hr⟩ := hr
  cases form with
  | output => exact hstep
  | statement => cases hr.trans hform.symm

/-- Behind the value of an output tag the tag may end. -/
theorem passes_end (hafter : s.machine.AfterValue .filters) (hf : s.machine.tag.form = .output)
    (hb : s.machine.brackets.isEmpty = true)
    (hr : s.reader.rest = ' ' :: (TagForm.closer .output ++ k)) :
    ∃ t, s.Passes (' ' :: TagForm.closer .output) [⟨.closeDelimiter, TagForm.closer .output⟩] t ∧
      t.reader.rest = k ∧ t.machine = s.machine.leaveTag := by
  obtain ⟨object, -, hstep⟩ := hafter.exists_step hb
  have hclose : ∀ r : Reader, TagForm.closer .output <+: r.rest → s.machine.step r =
      (s.machine.reaching s.machine.grammar.expect object).close false r.rest := by
    intro r hcloses
    obtain ⟨c, tail, hhead, hblank, hc, -⟩ := Machine.exists_head_of_ends (Or.inr hcloses)
    rw [hstep hhead hblank hc]
    refine (if_neg (Machine.head_ne_of_closer hcloses)).trans (if_pos ?_)
    exact Machine.atClose_closer (hf ▸ hcloses)
  obtain ⟨t, ht, hm, hrest⟩ := passes_closer hafter.phase_ne hr hclose hf hb
  exact ⟨t, ht, hrest, hm⟩

/-- An output tag with a value and nothing else. -/
theorem passes_valueTag (v : Value)
    (hopen : s.machine.step s.reader = s.machine.openTag .output s.reader.offset)
    (hr : s.reader.rest = Expression.print ⟨v, []⟩ ++ k) :
    ∃ t, s.Passes (Expression.print ⟨v, []⟩)
        (⟨.openDelimiter, TagForm.opener .output⟩ :: ⟨.outputTag, []⟩ ::
          (v.checked s.machine.grammar.dialect.objects .object ++
            [⟨.closeDelimiter, TagForm.closer .output⟩])) t ∧
      t.reader.rest = k ∧ t.machine.phase = .literal := by
  have hprint : Expression.print ⟨v, []⟩ =
      (TagForm.opener .output ++ ' ' :: v.print) ++ ' ' :: TagForm.closer .output := by
    simp [Expression.print]
  rw [hprint] at hr ⊢
  obtain ⟨t, ht, hrest, hafter, expect, object, phase, -, hm⟩ := walks_front v hopen
    (k := ' ' :: (TagForm.closer .output ++ k)) (by rw [hr]; simp) (endsValue_space _)
  obtain ⟨u, hu, hrest, hmachine⟩ := passes_end hafter (by rw [hm]; rfl) (by rw [hm]; rfl) hrest
  exact ⟨u, by simpa using ht.trans hu, hrest, by rw [hmachine]; rfl⟩

/-- **Properties are checked as the walk through the schemas finds them.**  In a run from the start
    of any text, in any dialect, let a scan open an output tag that holds a path and nothing else.
    The tag is passed over to its close delimiter, with the tokens of the path.  Its faults are the
    names that the walk from the head of the path reports, in their order, and no others. -/
theorem faults_eq_reports (source : String) (dialect : Dialect) {i : Nat} {head : Ident}
    (named : head.text ∉ Machine.booleans) (p : Path) {k : List Char}
    (ho : (ofString source dialect.lookup).eventAt i = .token .openDelimiter)
    (hr : ((ofString source dialect.lookup).after i).reader.rest =
      Expression.print ⟨.path head named p, []⟩ ++ k) :
    let s := (ofString source dialect.lookup).after i
    ∃ n t, PassesIn n s (Expression.print ⟨.path head named p, []⟩)
        (⟨.openDelimiter, TagForm.opener .output⟩ :: ⟨.outputTag, []⟩ :: ⟨.object, head.text⟩ ::
          (p.checked dialect.objects (head.shapeIn dialect.objects) ++
            [⟨.closeDelimiter, TagForm.closer .output⟩])) t ∧
      t.machine.phase = .literal ∧
      (s.lexemesUpTo n).filterMap Lexeme.fault? =
        (p.reports dialect.objects (head.shapeIn dialect.objects)).map
          (Fault.unknownProperty, ·) := by
  intro s
  have hdialect : s.machine.grammar.dialect = dialect := dialect_after source dialect i
  have hpre : TagForm.opener .output <+: s.reader.rest := by
    rw [hr]
    exact (List.prefix_append ..).trans (List.prefix_append ..)
  obtain ⟨t, ⟨n, hn⟩, -, hphase⟩ := passes_valueTag (.path head named p) (opensOutput ho hpre) hr
  rw [hdialect] at hn
  have hfaults : (s.lexemesUpTo n).filterMap Lexeme.fault? =
      (p.reports dialect.objects (head.shapeIn dialect.objects)).map
        (Fault.unknownProperty, ·) := by
    rw [hn.faults, List.filterMap_cons_none rfl, List.filterMap_cons_none rfl,
      List.filterMap_append, Value.faults_checked _ rfl, List.filterMap_cons_none rfl,
      List.filterMap_nil, List.append_nil]
    rfl
  rw [Value.checked, Ident.kindIn, ite_self] at hn
  exact ⟨n, t, hn, hphase, hfaults⟩

/-- A dialect with two objects that are checked. -/
def checkedDialect : Dialect where
  objects := .ofList [("m", .withNames ["n"]), ("v", .withNames ["w"])]

theorem isQuote_double : isQuote '"' = true :=
  rfl

/-- A name, and a path behind it with a string and a path of its own as keys. -/
def nestedHead : Ident :=
  ⟨"m".toList, rfl⟩

def nestedPath : Path :=
  .key ⟨'"', "q".toList, isQuote_double, by decide, by decide⟩ (by decide)
    (.path ⟨"v".toList, rfl⟩ (.property ⟨"z".toList, rfl⟩ .nil)
      (.property ⟨"n".toList, rfl⟩ .nil))

theorem faults_eq_reports_nested :
    let s := (ofString "<i>\x7b\x7b m[\"q\"][v.z].n \x7d\x7d</i>" checkedDialect.lookup).after 1
    let known := nestedHead.shapeIn checkedDialect.objects
    s.reader.rest = "\x7b\x7b m[\"q\"][v.z].n \x7d\x7d</i>".toList ∧
      nestedPath.reports checkedDialect.objects known = [['"', 'q', '"'], ['z']] ∧
      ∃ n t, PassesIn n s "\x7b\x7b m[\"q\"][v.z].n \x7d\x7d".toList
          (⟨.openDelimiter, TagForm.opener .output⟩ :: ⟨.outputTag, []⟩ ::
            ⟨.object, nestedHead.text⟩ :: (nestedPath.checked checkedDialect.objects known ++
              [⟨.closeDelimiter, TagForm.closer .output⟩])) t ∧
        t.machine.phase = .literal ∧ (s.lexemesUpTo n).filterMap Lexeme.fault? =
          [(.unknownProperty, ['"', 'q', '"']), (.unknownProperty, ['z'])] := by
  intro s known
  have hnamed : nestedHead.text ∉ Machine.booleans := by decide
  have hreports : nestedPath.reports checkedDialect.objects known = [['"', 'q', '"'], ['z']] := by
    decide +kernel
  have hrest : s.reader.rest = "\x7b\x7b m[\"q\"][v.z].n \x7d\x7d</i>".toList := by
    decide +kernel
  obtain ⟨n, t, hn, hphase, hfaults⟩ := faults_eq_reports
    "<i>\x7b\x7b m[\"q\"][v.z].n \x7d\x7d</i>" checkedDialect (i := 1) hnamed nestedPath
    (k := "</i>".toList) (by decide +kernel) hrest
  rw [hreports] at hfaults
  exact ⟨hrest, hreports, n, t, hn, hphase, hfaults⟩

end Scanner

end TemplateScan
