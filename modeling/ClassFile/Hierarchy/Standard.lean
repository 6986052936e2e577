import ClassFile.Hierarchy.Graph

namespace ClassFile
namespace ClassGraph

/-!
# Standard classes

The classes of the `java.lang` package that code most often mixes, with their
superclasses and the interfaces they name.
-/

private def cls : Access .cls := .ofBits 0x0021

private def finalClass : Access .cls := .ofBits 0x0031

private def interface : Access .cls := .ofBits 0x0601

private def serializable : ClassName := { text := "java/io/Serializable" }
private def cloneable : ClassName := { text := "java/lang/Cloneable" }
private def comparable : ClassName := { text := "java/lang/Comparable" }
private def charSequence : ClassName := { text := "java/lang/CharSequence" }
private def number : ClassName := { text := "java/lang/Number" }
private def error : ClassName := { text := "java/lang/Error" }
private def exception : ClassName := { text := "java/lang/Exception" }
private def runtimeException : ClassName := { text := "java/lang/RuntimeException" }
private def indexOutOfBounds : ClassName := { text := "java/lang/IndexOutOfBoundsException" }

/-- The standard classes, each after its superclass. -/
def standardClasses : List ClassInfo := [
  ⟨.object, none, [], cls⟩,
  ⟨charSequence, some .object, [], interface⟩,
  ⟨comparable, some .object, [], interface⟩,
  ⟨{ text := "java/lang/Runnable" }, some .object, [], interface⟩,
  ⟨{ text := "java/lang/Iterable" }, some .object, [], interface⟩,
  ⟨cloneable, some .object, [], interface⟩,
  ⟨serializable, some .object, [], interface⟩,
  ⟨{ text := "java/lang/String" }, some .object, [serializable, comparable, charSequence],
    finalClass⟩,
  ⟨{ text := "java/lang/Class" }, some .object, [serializable], finalClass⟩,
  ⟨number, some .object, [serializable], cls⟩,
  ⟨{ text := "java/lang/Integer" }, some number, [comparable], finalClass⟩,
  ⟨{ text := "java/lang/Long" }, some number, [comparable], finalClass⟩,
  ⟨{ text := "java/lang/Float" }, some number, [comparable], finalClass⟩,
  ⟨{ text := "java/lang/Double" }, some number, [comparable], finalClass⟩,
  ⟨{ text := "java/lang/Short" }, some number, [comparable], finalClass⟩,
  ⟨{ text := "java/lang/Byte" }, some number, [comparable], finalClass⟩,
  ⟨{ text := "java/lang/Boolean" }, some .object, [comparable], finalClass⟩,
  ⟨{ text := "java/lang/Character" }, some .object, [comparable], finalClass⟩,
  ⟨{ text := "java/lang/invoke/MethodHandle" }, some .object, [], cls⟩,
  ⟨{ text := "java/lang/invoke/MethodType" }, some .object, [serializable], finalClass⟩,
  ⟨.throwable, some .object, [serializable], cls⟩,
  ⟨error, some .throwable, [], cls⟩,
  ⟨{ text := "java/lang/AssertionError" }, some error, [], cls⟩,
  ⟨{ text := "java/lang/LinkageError" }, some error, [], cls⟩,
  ⟨exception, some .throwable, [], cls⟩,
  ⟨runtimeException, some exception, [], cls⟩,
  ⟨{ text := "java/lang/ArithmeticException" }, some runtimeException, [], cls⟩,
  ⟨{ text := "java/lang/ClassCastException" }, some runtimeException, [], cls⟩,
  ⟨{ text := "java/lang/IllegalArgumentException" }, some runtimeException, [], cls⟩,
  ⟨{ text := "java/lang/IllegalStateException" }, some runtimeException, [], cls⟩,
  ⟨{ text := "java/lang/NullPointerException" }, some runtimeException, [], cls⟩,
  ⟨indexOutOfBounds, some runtimeException, [], cls⟩,
  ⟨{ text := "java/lang/ArrayIndexOutOfBoundsException" }, some indexOutOfBounds, [], cls⟩,
  ⟨{ text := "java/lang/StringIndexOutOfBoundsException" }, some indexOutOfBounds, [], cls⟩]

def standard : ClassGraph :=
  ofList standardClasses

end ClassGraph
end ClassFile
