import BlockAssembler.Member

/-! Where the emitted code finds the runtime: the classes of its objects, the tables
in which names are looked up, and the members that are called. The parts are
texts, so a reference to a member may fail to be well formed; that shows only
when the reference is needed. -/

namespace BlockAssembler

structure Runtime where
  /-- the root class of the objects -/
  objectClass : String
  /-- the class of the tables of names, and the type of a field that holds one -/
  tableClass : String
  tableDescriptor : String
  /-- the method that looks a name up in a table -/
  tableGet : String
  tableGetDescriptor : String
  /-- the field of a module class that holds its globals -/
  globalsField : String
  /-- the class and the field that hold the builtins -/
  builtinsClass : String
  builtinsField : String
  /-- the method that makes a truth value of an object -/
  truthMethod : String
  truthDescriptor : String
  boolClass : String
  intClass : String
  /-- the method that makes an object of a long -/
  intFactory : String
  intFactoryDescriptor : String
  strClass : String
  strConstructorDescriptor : String
  deriving DecidableEq

namespace Runtime

def standard : Runtime where
  objectClass := "org/python/Object"
  tableClass := "java/util/Hashtable"
  tableDescriptor := "Ljava/util/Hashtable;"
  tableGet := "get"
  tableGetDescriptor := "(Ljava/lang/Object;)Ljava/lang/Object;"
  globalsField := "globals"
  builtinsClass := "org/Python"
  builtinsField := "builtins"
  truthMethod := "toBoolean"
  truthDescriptor := "()Z"
  boolClass := "org/python/types/Bool"
  intClass := "org/python/types/Int"
  intFactory := "getInt"
  intFactoryDescriptor := "(J)Lorg/python/types/Int;"
  strClass := "org/python/types/Str"
  strConstructorDescriptor := "(Ljava/lang/String;)V"

variable (config : Runtime)

def tableLookup : Except AssemblyError MethodRef :=
  MethodRef.ofText config.tableClass config.tableGet config.tableGetDescriptor

/-- The globals of the module class `descriptor`. -/
def globals (descriptor : String) : Except AssemblyError FieldRef :=
  FieldRef.ofText descriptor config.globalsField config.tableDescriptor

def builtins : Except AssemblyError FieldRef :=
  FieldRef.ofText config.builtinsClass config.builtinsField config.tableDescriptor

def truth : Except AssemblyError MethodRef :=
  MethodRef.ofText config.objectClass config.truthMethod config.truthDescriptor

def bool (value : Bool) : Except AssemblyError FieldRef :=
  FieldRef.ofText config.boolClass (if value then "TRUE" else "FALSE") s!"L{config.boolClass};"

def intMaker : Except AssemblyError MethodRef :=
  MethodRef.ofText config.intClass config.intFactory config.intFactoryDescriptor

def strConstructor : Except AssemblyError MethodRef :=
  MethodRef.ofText config.strClass "<init>" config.strConstructorDescriptor

end Runtime

end BlockAssembler
