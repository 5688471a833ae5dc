import MethodGraft.Source.Quote
import MethodGraft.Text.Blank

/-!
# Patch.Spec — what to patch and what to replace it with
-/

namespace MethodGraft.Patch

/-- The replacement of one method.  Classes have internal names here, but imports are written with
dots. -/
structure Spec where
  /-- Only archives whose names start with this are patched. -/
  archiveStart : String
  className : String
  methodName : String
  methodDescriptor : String
  /-- What is added to the name of the method that is replaced, which stays callable. -/
  renameSuffix : String
  /-- Classes or packages whose simple names the source may use. -/
  imports : List String
  /-- The declaration of the method that takes its place. -/
  source : String
  deriving DecidableEq, Repr

namespace Spec

/-- The fields of a spec that are texts, by the names they have where a spec is written. -/
def fields (s : Spec) : List (String × String) :=
  [("archive_prefix", s.archiveStart), ("class_name", s.className),
    ("method_name", s.methodName), ("method_descriptor", s.methodDescriptor),
    ("rename_suffix", s.renameSuffix), ("source", s.source)]

def missingField (name : String) : String := "missing field `" ++ name ++ "`"

def ofFields (field? : String → Option String) (imports : List String) : Except String Spec := do
  let field (name : String) : Except String String :=
    match field? name with
    | some value => .ok value
    | none => .error (missingField name)
  return {
    archiveStart := ← field "archive_prefix"
    className := ← field "class_name"
    methodName := ← field "method_name"
    methodDescriptor := ← field "method_descriptor"
    renameSuffix := ← field "rename_suffix"
    imports
    source := ← field "source" }

def entryName (s : Spec) : String := s.className ++ ".class"

def renamedMethod (s : Spec) : String := s.methodName ++ s.renameSuffix

def appliesTo (s : Spec) (archiveName : String) : Bool :=
  s.archiveStart.toList.isPrefixOf archiveName.toList

/-- The line that the source begins on: the first one that is not blank, if there is one. -/
def firstLine (s : Spec) : Nat :=
  let text := s.source.toList
  if text.all Blank.isBlank then 1 else (text.takeWhile Blank.isBlank).count '\n' + 1

/-! ## The accessibility patch -/

/-- The source of the accessibility patch up to the text that device names are searched for. -/
def accessibilityBefore : String :=
  "public AccessibilityNodeInfo createAccessibilityNodeInfo(int virtualViewId) \x7b\n" ++
  "    final AccessibilityNodeInfo result = createAccessibilityNodeInfo_original(virtualViewId);" ++
  "\n\n" ++
  "    if (Build.MANUFACTURER.contains(\""

def accessibilityAfter : String :=
  "\")) \x7b\n" ++
  "        if (flutterSemanticsTree.containsKey(Integer.valueOf(virtualViewId))) \x7b\n" ++
  "            final Object semanticsNode = flutterSemanticsTree.get(Integer.valueOf(" ++
  "virtualViewId));\n\n" ++
  "            if (semanticsNode != null) \x7b\n" ++
  "                final CharSequence value = " ++
  "(CharSequence) readField(semanticsNode, \"value\");\n\n" ++
  "                if (value != null && value.length() > 0) \x7b\n" ++
  "                    Log.d(\"AccessibilityBridge\", " ++
  "\"Semantics value injection: \" + value.toString());\n" ++
  "                    result.setContentDescription(value);\n" ++
  "                \x7d\n" ++
  "            \x7d\n" ++
  "        \x7d\n" ++
  "    \x7d\n" ++
  "\n" ++
  "    return result;\n" ++
  "\x7d\n"

/-- On devices whose manufacturer's name contains `manufacturer`, the value of a semantics node
becomes the content description of the accessibility node built for it. -/
def accessibility (manufacturer : String) : Spec where
  archiveStart := "io.flutter:flutter_embedding"
  className := "io/flutter/view/AccessibilityBridge"
  methodName := "createAccessibilityNodeInfo"
  methodDescriptor := "(I)Landroid/view/accessibility/AccessibilityNodeInfo;"
  renameSuffix := "_original"
  imports := ["android.os.Build", "android.util.Log",
    "android.view.accessibility.AccessibilityNodeInfo"]
  source := accessibilityBefore ++ Source.quote manufacturer ++ accessibilityAfter

end Spec

end MethodGraft.Patch
