import TemplateScan.Dialect.Basic

/-! # The standard dialect — the tags and filters every template language of the family ships -/

namespace TemplateScan.Dialect

-- ── arguments ────────────────────────────────────────────────────────────────────

/-- A mandatory text argument. -/
def textArgument : ArgumentRule :=
  (ArgumentRule.ofTypes [.string, .reference]).asRequired

/-- A mandatory argument that is any number. -/
def numberArgument : ArgumentRule :=
  (ArgumentRule.ofTypes [.integer, .float, .reference]).asRequired

/-- A mandatory argument that is a whole number. -/
def integerArgument : ArgumentRule :=
  (ArgumentRule.ofTypes [.integer, .reference]).asRequired

/-- A text argument that may be left out. -/
def optionalText : ArgumentRule :=
  .ofTypes [.string, .reference]

/-- A whole number that may be left out. -/
def optionalInteger : ArgumentRule :=
  .ofTypes [.integer, .reference]

-- ── tags ─────────────────────────────────────────────────────────────────────────

/-- A tag with a condition that opens a block. -/
def conditionalBlock : TagRule :=
  (TagRule.ofKind .control).asBlock.withArguments

/-- The rules of the standard tags. -/
def standardTags : List (String × TagRule) :=
  [("comment", (TagRule.ofKind .comment).asBlock),
   ("raw", (TagRule.ofKind .raw).asBlock),
   ("if", conditionalBlock),
   ("unless", conditionalBlock),
   ("case", conditionalBlock),
   ("elsif", (TagRule.ofKind .control).withArguments.within ["if", "unless"]),
   ("when", (TagRule.ofKind .control).withArguments.within ["case"]),
   ("else", (TagRule.ofKind .control).within ["if", "unless", "case", "for"]),
   ("for", { kind := .iteration, block := true, arguments := true,
             parameters := [⟨"limit", true⟩, ⟨"offset", true⟩, ⟨"reversed", false⟩] }),
   ("tablerow", { kind := .iteration, block := true, arguments := true,
                  parameters := [⟨"cols", true⟩, ⟨"limit", true⟩, ⟨"offset", true⟩] }),
   ("break", (TagRule.ofKind .other).asSingular),
   ("continue", (TagRule.ofKind .other).asSingular),
   ("assign", (TagRule.ofKind .assignment).withArguments),
   ("capture", (TagRule.ofKind .assignment).asBlock),
   ("increment", .ofKind .assignment),
   ("decrement", .ofKind .assignment),
   ("echo", (TagRule.ofKind .output).withArguments),
   ("cycle", (TagRule.ofKind .other).withArguments),
   ("include", (TagRule.ofKind .inclusion).withArguments),
   ("render", (TagRule.ofKind .inclusion).withArguments),
   ("liquid", (TagRule.ofKind .other).withArguments)]

-- ── filters ──────────────────────────────────────────────────────────────────────

/-- The standard filters without arguments. -/
def plainFilters : List String :=
  ["abs", "capitalize", "ceil", "compact", "downcase", "escape", "escape_once", "first", "floor",
   "last", "lstrip", "newline_to_br", "reverse", "rstrip", "size", "sort_natural", "strip",
   "strip_html", "strip_newlines", "uniq", "upcase", "url_decode", "url_encode"]

/-- The standard filters with arguments. -/
def argumentFilters : List (String × List ArgumentRule) :=
  [("append", [textArgument]),
   ("prepend", [textArgument]),
   ("remove", [textArgument]),
   ("remove_first", [textArgument]),
   ("split", [textArgument]),
   ("map", [textArgument]),
   ("date", [textArgument]),
   ("replace", [textArgument, textArgument]),
   ("replace_first", [textArgument, textArgument]),
   ("plus", [numberArgument]),
   ("minus", [numberArgument]),
   ("times", [numberArgument]),
   ("divided_by", [numberArgument]),
   ("modulo", [numberArgument]),
   ("at_least", [numberArgument]),
   ("at_most", [numberArgument]),
   ("round", [optionalInteger]),
   ("join", [optionalText]),
   ("sort", [optionalText]),
   ("concat", [(ArgumentRule.ofTypes [.reference]).asRequired]),
   ("slice", [integerArgument, optionalInteger]),
   ("truncate", [integerArgument, optionalText]),
   ("truncatewords", [integerArgument, optionalText]),
   ("where", [textArgument, .ofTypes [.string, .integer, .float, .boolean, .reference]]),
   ("default", [(ArgumentRule.ofTypes []).asRequired, (ArgumentRule.ofTypes [.boolean]).ofKind .named])]

/-- The dialect of the standard tags and filters; it knows no object. -/
def standard : Dialect where
  tags := .ofList standardTags
  filters := .ofList
    (plainFilters.map (fun name => (name, .ofArguments [])) ++
      argumentFilters.map fun f => (f.1, .ofArguments f.2))

end TemplateScan.Dialect
