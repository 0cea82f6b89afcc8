import TemplateCompiler.Options
import TemplateCompiler.Message

/-!
# Document types

A document type declaration depends on the format of the document and on the type
that is asked for.  The older formats have several types each, and fall back on
their transitional one.

Main results:

- Definition {lit}`Doctype.opener`: what is printed for a document type in each format.
- Definition {lit}`Doctype.warnings`: the types that a format does not have.
-/

namespace TemplateCompiler.Doctype

/-- The declaration without an identifier. -/
def plain : Bytes := ascii "<!DOCTYPE html>"

/-- The declaration with a public identifier and the place of its grammar. -/
def identified (identifier location : String) : Bytes :=
  ascii "<!DOCTYPE html PUBLIC \"" ++ ascii identifier ++ ascii "\" \"" ++ ascii location
    ++ ascii "\">"

/-- The prolog of a document in markup that follows the stricter grammar. -/
def prolog : Bytes := ascii "<?xml version='1.0' encoding='utf-8' ?>"

/-- The document types of an older format. -/
structure Family where
  /-- The declaration that is used for every other type. -/
  transitional : Bytes
  /-- The declarations of the types by name. -/
  named : List (Bytes × Bytes)

/-- The document types of a format, if it has several. -/
def family? : Format → Option Family
  | .html5 => none
  | .xhtml => some
    { transitional := identified "-//W3C//DTD XHTML 1.0 Transitional//EN"
        "http://www.w3.org/TR/xhtml1/DTD/xhtml1-transitional.dtd"
      named :=
        [(ascii "Strict", identified "-//W3C//DTD XHTML 1.0 Strict//EN"
            "http://www.w3.org/TR/xhtml1/DTD/xhtml1-strict.dtd"),
          (ascii "Frameset", identified "-//W3C//DTD XHTML 1.0 Frameset//EN"
            "http://www.w3.org/TR/xhtml1/DTD/xhtml1-frameset.dtd"),
          (ascii "1.1", identified "-//W3C//DTD XHTML 1.1//EN"
            "http://www.w3.org/TR/xhtml11/DTD/xhtml11.dtd"),
          (ascii "Basic", identified "-//W3C//DTD XHTML Basic 1.1//EN"
            "http://www.w3.org/TR/xhtml-basic/xhtml-basic11.dtd"),
          (ascii "Mobile", identified "-//WAPFORUM//DTD XHTML Mobile 1.2//EN"
            "http://www.openmobilealliance.org/tech/DTD/xhtml-mobile12.dtd"),
          (ascii "RDFa", identified "-//W3C//DTD XHTML+RDFa 1.0//EN"
            "http://www.w3.org/MarkUp/DTD/xhtml-rdfa-1.dtd")] }
  | .html4 => some
    { transitional := identified "-//W3C//DTD HTML 4.01 Transitional//EN"
        "http://www.w3.org/TR/html4/loose.dtd"
      named :=
        [(ascii "Strict", identified "-//W3C//DTD HTML 4.01//EN"
            "http://www.w3.org/TR/html4/strict.dtd"),
          (ascii "Frameset", identified "-//W3C//DTD HTML 4.01 Frameset//EN"
            "http://www.w3.org/TR/html4/frameset.dtd")] }

/-! ## Reading -/

/-- The type that an expression asks for. -/
def requested (expression : Bytes) : Bytes :=
  trim (if (ascii "!!!").isPrefixOf expression then expression.drop 3 else expression)

/-- What is declared for an expression. -/
inductive Declared where
  /-- The prolog, which only one format has. -/
  | prolog
  /-- The declaration without an identifier. -/
  | plain
  /-- A named type of a family. -/
  | named (declaration : Bytes)
  /-- The transitional type of a family, for a type that it does not name. -/
  | fallback (declaration type : Bytes)

/-- Read a document type. -/
def read (format : Format) (expression : Bytes) : Declared :=
  let type := requested expression
  if type = ascii "XML" then .prolog
  else if type = ascii "5" then .plain
  else
    match family? format with
    | none => .plain
    | some family =>
      match family.named.lookup type with
      | some declaration => .named declaration
      | none => .fallback family.transitional type

/-- The markup of a document type; a prolog is left out where the format has
none. -/
def opener (format : Format) (expression : Bytes) : Bytes :=
  match read format expression with
  | .prolog => if format = .xhtml then prolog else []
  | .plain => plain
  | .named declaration => declaration
  | .fallback declaration _ => declaration

/-- The warnings about a document type. -/
def warnings (format : Format) (expression : Bytes) : List Warning :=
  match read format expression with
  | .fallback _ (c :: rest) => [.unknownDoctype (c :: rest)]
  | _ => []

end TemplateCompiler.Doctype
